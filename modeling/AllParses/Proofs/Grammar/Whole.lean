import AllParses.Proofs.Grammar.Tokens
import AllParses.Proofs.Parser.Steady

/-!
# Parses of the whole input

The derivations whose leaves make up the whole input decide what the parser of a progressive grammar
answers about it. If there is one such derivation, its tree is the full parse and there is no other
one; if there is none, there is no full parse.

Which leaves make up an input is a question about the input alone. For tokens it has one answer
(`covers_tokens_iff`). For a text it has one at most if the leaves come from a prefix code, and then
the text is made of pieces, the leaves with layout before each (`covers_text_iff`).
-/
namespace AllParses

open AllParses.Parser (Answers CompleteParses)

namespace Parser

variable {σ α : Type} {p : Parser σ α} {x : Input σ} {values : List α}

theorem CompleteParses.answers (steady : p.Steady)
    (complete : ∀ᶠ budget in Filter.atTop, p.CompleteParses budget x values) :
    Answers (fun budget => p.fullParse budget x) (values.head?.elim (.error .noFullParse) .ok) ∧
      Answers (fun budget => p.isAmbiguous budget x) (decide (1 < values.length)) :=
  ⟨.of_eventually (fun _ _ _ => steady.fullParse) (complete.mono fun _ parses => parses.first),
    .of_eventually (fun _ _ _ => steady.isAmbiguous)
      (complete.mono fun _ parses => parses.ambiguous)⟩

end Parser

namespace Grammar

variable {σ : Type} [Alphabet σ] [DecidableEq σ]
variable {g : Grammar} {o : Options} {s : Symbol} {x : Input σ} {d : Derivation}

/-- The lexemes take up the whole input, with the layout before them if layout is skipped. -/
def Options.Covers (o : Options) (x : Input σ) (names : List String) : Prop :=
  ∃ rest, o.stripAll? x names = some rest ∧ rest.isEmpty = true

/-- A derivation of the symbol whose leaves take up the whole input. -/
structure Derives (g : Grammar) (o : Options) (s : Symbol) (x : Input σ) (d : Derivation) :
    Prop where
  symbol : d.symbol = s
  valid : d.Valid g
  covers : o.Covers x d.leaves

theorem symbolParser_steady (g : Grammar) (o : Options) (s : Symbol) :
    (g.symbolParser o s : Parser σ ParseTree).Steady :=
  fun _ _ x more => approximates_symbolParser more s x

/-- The full parses are the trees of the derivations of the whole input, where each derivation counts
once. -/
theorem Progressive.exists_completeParses (progressive : g.Progressive σ) (o : Options) (s : Symbol)
    (x : Input σ) {budget : Nat} (enough : g.expansionBound x ≤ budget) :
    ∃ ds : List Derivation, ds.Nodup ∧ (∀ d, d ∈ ds ↔ Derives g o s x d) ∧
      CompleteParses (g.symbolParser o s) budget x (ds.map Derivation.tree) := by
  have finished := progressive.finished_derivationParser (o := o) enough s
  have ordered := ordered_derivationParser finished
  have all : (g.symbolParser o s).all budget x =
      some (((g.derivationParser o s).run budget x).items.map fun r => (r.1.tree, r.2)) := by
    rw [symbolParser_eq_map]
    exact Results.toList?_map _ (Results.toList?_eq_some_iff.mpr ⟨finished, rfl⟩)
  refine ⟨(((g.derivationParser o s).run budget x).items.filter fun r => r.2.isEmpty).map Prod.fst,
    ?nodup, fun d => ?members, ?parses⟩
  case nodup =>
    refine List.pairwise_map.mpr ((ordered.sublist List.filter_sublist).imp ?_)
    intro a b before same
    rw [same] at before
    exact List.lt_irrefl _ before.lt
  case members =>
    simp only [List.mem_map, List.mem_filter, Prod.exists, exists_and_right, exists_eq_right,
      mem_items_iff_reads finished]
    constructor
    · rintro ⟨rest, reads, whole⟩
      exact ⟨reads.symbol, reads.valid, rest, reads.spelling, whole⟩
    · rintro ⟨symbol, valid, rest, spelling, whole⟩
      exact ⟨rest, ⟨symbol, valid, spelling⟩, whole⟩
  case parses =>
    have parses := Parser.completeParses_of_all all
    rw [List.filter_map, List.map_map] at parses
    rwa [List.map_map]

/-- The only derivation of the whole input is the full parse, and the input is not ambiguous. -/
theorem Progressive.answers_of_unique (progressive : g.Progressive σ)
    (derives : Derives g o s x d) (only : ∀ e, Derives g o s x e → e = d) :
    Answers (fun budget => (g.symbolParser o s).fullParse budget x) (.ok d.tree) ∧
      Answers (fun budget => (g.symbolParser o s).isAmbiguous budget x) false := by
  have complete : ∀ᶠ budget in Filter.atTop,
      CompleteParses (g.symbolParser o s) budget x [d.tree] := by
    filter_upwards [Filter.eventually_ge_atTop (g.expansionBound x)] with budget enough
    obtain ⟨ds, nodup, members, parses⟩ := progressive.exists_completeParses o s x enough
    have single : ds.Perm [d] := by
      refine (List.perm_ext_iff_of_nodup nodup (List.nodup_singleton d)).mpr fun e => ?_
      rw [members, List.mem_singleton]
      exact ⟨only e, fun same => same ▸ derives⟩
    rwa [List.perm_singleton.mp single] at parses
  exact Parser.CompleteParses.answers (symbolParser_steady g o s) complete

/-- Without a derivation of the whole input there is no full parse. -/
theorem Progressive.answers_of_none (progressive : g.Progressive σ)
    (none : ∀ e, ¬ Derives g o s x e) :
    Answers (fun budget => (g.symbolParser o s).fullParse budget x) (.error .noFullParse) ∧
      Answers (fun budget => (g.symbolParser o s).isAmbiguous budget x) false := by
  have complete : ∀ᶠ budget in Filter.atTop,
      CompleteParses (g.symbolParser o s) budget x [] := by
    filter_upwards [Filter.eventually_ge_atTop (g.expansionBound x)] with budget enough
    obtain ⟨ds, -, members, parses⟩ := progressive.exists_completeParses o s x enough
    have empty : ds = [] := List.eq_nil_iff_forall_not_mem.mpr fun e => mt (members e).mp (none e)
    rwa [empty] at parses
  exact Parser.CompleteParses.answers (symbolParser_steady g o s) complete

/-! ## Leaves that take up an input -/

theorem Options.covers_tokens_iff {x : Input String} {names : List String} :
    o.Covers x names ↔ x.symbols = names := by
  simp only [Covers, Options.stripAll?_eq_some_iff_of_plain (Options.plain_tokens o),
    Options.flatMap_spell_tokens, Input.isEmpty, List.isEmpty_iff]
  constructor
  · rintro ⟨rest, split, whole⟩
    rw [split, whole, List.append_nil]
  · intro same
    exact ⟨.ofList [], by simp [same], rfl⟩

/-- What is taken up by lexemes are pieces with these lexemes as their tokens. -/
theorem Options.exists_pieces_of_stripAll? {x rest : Input Char} {names : List String}
    (read : o.stripAll? x names = some rest) (whole : rest.isEmpty = true) :
    ∃ pieces : List Piece, pieces.map Piece.token = names ∧ Piece.text pieces = x := by
  induction names generalizing x with
  | nil =>
    obtain rfl := Option.some.inj read
    exact ⟨[], rfl, Input.ext (List.isEmpty_iff.mp whole).symm⟩
  | cons name names ih =>
    obtain ⟨mid, first, later⟩ := Option.bind_eq_some_iff.mp read
    obtain ⟨gap, layout, front⟩ := gap_of_strip? first
    obtain ⟨pieces, rfl, rfl⟩ := ih later
    refine ⟨⟨gap, name, List.all_eq_true.mpr layout⟩ :: pieces, rfl, Input.ext ?_⟩
    rw [front, Piece.text, Piece.text, Input.symbols_ofList, Input.symbols_ofList,
      List.flatMap_cons, List.append_assoc]
    rfl

end Grammar

namespace PrefixCode

open Grammar (Options)

variable {names : String → Prop} {o : Options} {pieces ps : List Piece} {leaves : List String}

theorem stripAll?_text (code : PrefixCode names) (skips : o.skipLayout = true)
    (tokens : ∀ piece ∈ pieces, names piece.token) :
    o.stripAll? (Piece.text pieces) (pieces.map Piece.token) = some (Piece.text []) := by
  induction pieces with
  | nil => rfl
  | cons piece pieces ih =>
    have token := tokens piece List.mem_cons_self
    rw [List.map_cons, Options.stripAll?, code.strip?_text_cons token token skips, if_pos rfl]
    exact ih fun later member => tokens later (List.mem_cons_of_mem piece member)

theorem covers_text_iff (code : PrefixCode names) (skips : o.skipLayout = true)
    (among : ∀ name ∈ leaves, names name) {x : Input Char} :
    o.Covers x leaves ↔ ∃ pieces : List Piece, pieces.map Piece.token = leaves ∧
      Piece.text pieces = x := by
  constructor
  · rintro ⟨rest, read, whole⟩
    exact Options.exists_pieces_of_stripAll? read whole
  · rintro ⟨pieces, rfl, rfl⟩
    exact ⟨.ofList [], code.stripAll?_text skips fun piece member =>
      among _ (List.mem_map_of_mem member), rfl⟩

/-- A text is made of tokens of a prefix code in one way at most. -/
theorem tokens_of_text (code : PrefixCode names) (tokens : ∀ piece ∈ pieces, names piece.token)
    (tokens' : ∀ piece ∈ ps, names piece.token) (same : Piece.text pieces = Piece.text ps) :
    pieces.map Piece.token = ps.map Piece.token := by
  induction pieces generalizing ps with
  | nil =>
    have none := code.isEmpty_text tokens'
    rw [← same] at none
    rw [List.isEmpty_iff.mp none.symm]
  | cons piece pieces ih =>
    have token := tokens piece List.mem_cons_self
    cases ps with
    | nil =>
      have some_piece := code.isEmpty_text tokens
      rw [same] at some_piece
      cases some_piece
    | cons other ps =>
      -- The first token of the one text can be stripped from the other one too.
      have one : ({} : Options).strip? (Piece.text (piece :: pieces)) piece.token =
          some (Piece.text pieces) :=
        (code.strip?_text_cons token token rfl).trans (if_pos rfl)
      have two : ({} : Options).strip? (Piece.text (other :: ps)) piece.token =
          if piece.token = other.token then some (Piece.text ps) else none :=
        code.strip?_text_cons (tokens' other List.mem_cons_self) token rfl
      rw [same, two, Option.ite_none_right_eq_some, Option.some.injEq] at one
      rw [List.map_cons, List.map_cons, one.1]
      congr 1
      exact ih (fun later member => tokens later (List.mem_cons_of_mem piece member))
        (fun later member => tokens' later (List.mem_cons_of_mem other member)) one.2.symm

end PrefixCode

end AllParses
