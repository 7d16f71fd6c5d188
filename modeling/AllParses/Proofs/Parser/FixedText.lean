import AllParses.Parser.Compose
import AllParses.Proofs.Input

/-!
# Fixed texts

A fixed sequence of symbols can be matched in three ways: by comparing it with as many symbols from the
front (`token`), by stripping a name from the front (`literal`), and symbol by symbol (`spelled`). Each
of them `ReadsExactly` the sequence: where it stands in front there is one result, which leaves what
follows it, and elsewhere there is none. A parser is determined by what it reads in this way and by the
value that it gives (`ReadsExactly.eq`), so the three are one parser up to their values. How single
symbols are put together plays no part, since parsers of this kind read the concatenation in sequence
(`ReadsExactly.andThen`).

Texts are stored in UTF-8. They are cut at the byte where the counted characters end, and a name is
stripped when its bytes stand in front; that both come to the same as counting and comparing characters
is shown with the inputs (`Input.utf8_take_append_drop`, `Input.strip?_iff_utf8`).
-/
namespace AllParses

namespace Parser

variable {σ α β : Type}

/-- Behind a single result the sequence is what the second parser makes of its rest. -/
theorem run_andThen_of_single {p : Parser σ α} {q : Parser σ β} {budget : Nat} {x mid : Input σ}
    {v : α} (passed : p.run budget x = .single (v, mid)) :
    (p.andThen q).run budget x = (q.run budget mid).map fun r => ((v, r.1), r.2) := by
  rw [run_andThen, passed]
  exact Results.append_done _

/-- Where the symbols stand in front the parser has the one result that leaves what follows them, and
elsewhere it has none; the budget plays no part. -/
structure ReadsExactly (symbols : List σ) (v : α) (p : Parser σ α) : Prop where
  succeeds : ∀ budget (x rest : Input σ), x.symbols = symbols ++ rest.symbols →
    p.run budget x = .single (v, rest)
  refuses : ∀ budget (x : Input σ), (∀ rest : Input σ, x.symbols ≠ symbols ++ rest.symbols) →
    p.run budget x = .done

namespace ReadsExactly

section

variable {front back : List σ} {v : α} {w : β} {p p' : Parser σ α} {q : Parser σ β}

/-- On every input it is known whether the symbols stand in front, so every call comes back. -/
theorem starts (reads : ReadsExactly front v p) (budget : Nat) (x : Input σ) :
    p.starts budget x = true := by
  apply starts_of_ne_cut
  by_cases stands : ∃ rest : Input σ, x.symbols = front ++ rest.symbols
  · obtain ⟨rest, split⟩ := stands
    rw [reads.succeeds budget x rest split]
    nofun
  · rw [reads.refuses budget x (not_exists.mp stands)]
    nofun

/-- There is only one parser that reads the symbols with this value. -/
theorem eq (one : ReadsExactly front v p) (other : ReadsExactly front v p') : p = p' := by
  ext budget x
  case starts => rw [one.starts budget x, other.starts budget x]
  case run =>
    by_cases stands : ∃ rest : Input σ, x.symbols = front ++ rest.symbols
    · obtain ⟨rest, split⟩ := stands
      rw [one.succeeds budget x rest split, other.succeeds budget x rest split]
    · have missing := not_exists.mp stands
      rw [one.refuses budget x missing, other.refuses budget x missing]

protected theorem succeed (v : α) : ReadsExactly [] v (succeed v : Parser σ α) where
  succeeds budget x rest split := by
    rw [run_succeed, Input.ext split]
  refuses budget x missing := absurd rfl (missing x)

protected theorem map (f : α → β) (reads : ReadsExactly front v p) :
    ReadsExactly front (f v) (p.map f) where
  succeeds budget x rest split := by
    rw [run_map, reads.succeeds budget x rest split]
    rfl
  refuses budget x missing := by
    rw [run_map, reads.refuses budget x missing]
    rfl

/-- A sequence reads what its parts read, one behind the other. -/
protected theorem andThen (first : ReadsExactly front v p) (second : ReadsExactly back w q) :
    ReadsExactly (front ++ back) (v, w) (p.andThen q) where
  succeeds budget x rest split := by
    rw [List.append_assoc] at split
    have passed := first.succeeds budget x (.ofList (back ++ rest.symbols)) split
    rw [run_andThen_of_single passed, second.succeeds budget _ rest rfl]
    rfl
  refuses budget x missing := by
    by_cases stands : ∃ mid : Input σ, x.symbols = front ++ mid.symbols
    · obtain ⟨mid, split⟩ := stands
      have stops : ∀ rest : Input σ, mid.symbols ≠ back ++ rest.symbols := by
        intro rest later
        exact missing rest (by rw [split, later, List.append_assoc])
      rw [run_andThen_of_single (first.succeeds budget x mid split), second.refuses budget mid stops]
      rfl
    · rw [run_andThen, first.refuses budget x (not_exists.mp stands)]
      rfl

end

section

variable [DecidableEq σ]

protected theorem symbol (c : σ) : ReadsExactly [c] c (symbol c) where
  succeeds budget x rest split := by
    have first : x.head? = some c := Input.head?_eq_some_iff.mpr ⟨rest, split⟩
    have tail : x.tail = rest := Input.ext (by rw [Input.symbols_tail, split]; rfl)
    rw [symbol, run_satisfy, first, tail, Option.filter_some, beq_self_eq_true]
    rfl
  refuses budget x missing := by
    have other : x.head? ≠ some c := by
      intro first
      obtain ⟨rest, split⟩ := Input.head?_eq_some_iff.mp first
      exact missing rest split
    rw [symbol, run_satisfy]
    cases found : x.head? with
    | none => rfl
    | some d =>
      have different : d ≠ c := fun same => other (same ▸ found)
      rw [Option.filter_some, beq_false_of_ne different]
      rfl

protected theorem token (symbols : List σ) : ReadsExactly symbols symbols (token symbols) where
  succeeds budget x rest split := by
    have dropped : x.drop symbols.length = rest := Input.ext (by simp [split])
    rw [run_token, if_pos (by simp [split]), dropped]
  refuses budget x missing := by
    rw [run_token, if_neg]
    intro front
    have split := List.take_append_drop symbols.length x.symbols
    rw [eq_of_beq front] at split
    exact missing (x.drop symbols.length) split.symm

/-- A name is read as it is spelt: on texts character by character, on tokens as one of them. -/
protected theorem literal [Alphabet σ] (name : String) :
    ReadsExactly (Alphabet.spell name) () (literal name : Parser σ Unit) where
  succeeds budget x rest split := by
    rw [run_literal, Input.strip?_eq_some_iff.mpr split]
    rfl
  refuses budget x missing := by
    rw [run_literal, Input.strip?_eq_none_iff.mpr missing]
    rfl

end

end ReadsExactly

/-- The symbols one after the other, each by a parser of its own. -/
def spelled [DecidableEq σ] : List σ → Parser σ (List σ)
  | [] => succeed []
  | c :: cs => ((symbol c).andThen (spelled cs)).map fun read => read.1 :: read.2

theorem ReadsExactly.spelled [DecidableEq σ] (symbols : List σ) :
    ReadsExactly symbols symbols (spelled symbols) := by
  induction symbols with
  | nil => exact .succeed []
  | cons c cs ih => exact ((ReadsExactly.symbol c).andThen ih).map fun read => read.1 :: read.2

/-- A sequence of symbols is matched at once, by its name or symbol by symbol: on a text, on tokens, by
a name that is one token, by a token on its own. All ways succeed on the same inputs, those that begin
with the symbols, and have one result there, which leaves what follows them. Below this, what is taken
from the front of an input and what is dropped there make up the input, with as many symbols in front
as were asked for or as there are, and dropping twice is dropping once. On the bytes of a text it is
the same cut, and a name is stripped where its bytes stand in front. -/
theorem fixed_text_matched_alike :
    (∀ {σ : Type} [DecidableEq σ] (symbols : List σ),
      ReadsExactly symbols symbols (token symbols) ∧ spelled symbols = token symbols) ∧
    (∀ text : String,
      ReadsExactly text.toList () (literal text : Parser Char Unit) ∧
      (literal text : Parser Char Unit) = (token text.toList).map fun _ => ()) ∧
    (∀ name : String,
      ReadsExactly [name] name (symbol name) ∧
      token [name] = (symbol name).map (fun name => [name]) ∧
      (literal name : Parser String Unit) = (symbol name).map fun _ => ()) ∧
    (∀ {σ : Type} (x : Input σ) (n m : Nat),
      Input.ofList ((x.take n).symbols ++ (x.drop n).symbols) = x ∧
      (x.take n).size = min n x.size ∧ (x.drop n).drop m = x.drop (m + n)) ∧
    ∀ x : Input Char,
      (∀ n, x.utf8 = (x.take n).utf8 ++ (x.drop n).utf8 ∧
        (x.take n).utf8.size = (x.take n).utf8Size) ∧
      ∀ (name : String) (bytes : ByteArray),
        x.utf8 = name.toByteArray ++ bytes ↔
          ∃ rest, x.strip? name = some rest ∧ rest.utf8 = bytes := by
  refine ⟨fun symbols => ?sequence, fun text => ?text, fun name => ?name, fun x n m => ?cut,
    fun x => ⟨fun n => ?bytes, x.strip?_iff_utf8⟩⟩
  case sequence =>
    exact ⟨.token symbols, (ReadsExactly.spelled symbols).eq (.token symbols)⟩
  case text =>
    have reads : ReadsExactly text.toList () (literal text : Parser Char Unit) := .literal text
    exact ⟨reads, reads.eq ((ReadsExactly.token text.toList).map fun _ => ())⟩
  case name =>
    have reads := ReadsExactly.symbol name
    have as_literal : ReadsExactly [name] () (literal name : Parser String Unit) := .literal name
    exact ⟨reads, (ReadsExactly.token [name]).eq (reads.map fun name => [name]),
      as_literal.eq (reads.map fun _ => ())⟩
  case cut => exact ⟨x.take_append_drop n, x.size_take n, x.drop_drop n m⟩
  case bytes => exact ⟨x.utf8_take_append_drop n, (x.take n).size_utf8⟩

end Parser

end AllParses
