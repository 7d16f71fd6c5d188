import AllParses.Proofs.Parser.FixedText
import AllParses.Proofs.Parser.Settled
import AllParses.Proofs.Parser.Steady
import AllParses.Recognizer
import Mathlib.Data.List.TakeWhile

/-!
# Lexemes

A mark is read where it stands and nowhere else. A run takes characters of its class up to the first
one outside (`run_settles`), and it fails where the text begins outside the class (`run_refuses`).
Every text falls under exactly one of the two (`BeginsOutside.exists_split`), so a recognizer of runs
has at most one result anywhere, and what it takes is the longest run there is
(`BeginsOutside.longestRun`).
-/
namespace AllParses

namespace Parser

variable {σ : Type}

namespace ReadsExactly

variable {α : Type} {v : α} {front : List σ} {p : Parser σ α} {x rest : Input σ}

theorem settles (reads : ReadsExactly front v p) (split : x.symbols = front ++ rest.symbols) :
    p.Settles x [(v, rest)] := by
  refine .of_run fun budget => ?_
  rw [reads.succeeds budget x rest split]
  rfl

theorem settles_nil (reads : ReadsExactly front v p)
    (missing : ∀ rest : Input σ, x.symbols ≠ front ++ rest.symbols) : p.Settles x [] := by
  refine .of_run fun budget => ?_
  rw [reads.refuses budget x missing]
  rfl

end ReadsExactly

variable [DecidableEq σ]

theorem symbol_settles {c : σ} {x rest : Input σ} (front : x.symbols = c :: rest.symbols) :
    (symbol c).Settles x [(c, rest)] :=
  (ReadsExactly.symbol c).settles front

theorem symbol_refuses {c : σ} {x : Input σ} (other : x.head? ≠ some c) :
    (symbol c).Settles x [] :=
  (ReadsExactly.symbol c).settles_nil fun rest front =>
    other (Input.head?_eq_some_iff.mpr ⟨rest, front⟩)

theorem token_settles {cs : List σ} {x rest : Input σ} (front : x.symbols = cs ++ rest.symbols) :
    (token cs).Settles x [(cs, rest)] :=
  (ReadsExactly.token cs).settles front

theorem token_refuses {cs : List σ} {x : Input σ}
    (other : ∀ rest : Input σ, x.symbols ≠ cs ++ rest.symbols) : (token cs).Settles x [] :=
  (ReadsExactly.token cs).settles_nil other

end Parser

/-- The longest beginning of the symbols that is of the class throughout. -/
structure LongestRun {σ : Type} (p : σ → Bool) (front symbols : List σ) : Prop where
  beginning : front <+: symbols
  inside : ∀ c ∈ front, p c = true
  longest : ∀ other, other <+: symbols → (∀ c ∈ other, p c = true) → other <+: front

/-- The symbols do not begin with one of the class. -/
def BeginsOutside {σ : Type} (p : σ → Bool) (symbols : List σ) : Prop :=
  ∀ c ∈ symbols.head?, p c = false

namespace BeginsOutside

variable {σ : Type} {p : σ → Bool}

theorem cons_iff {c : σ} {symbols : List σ} : BeginsOutside p (c :: symbols) ↔ p c = false := by
  simp [BeginsOutside]

theorem iff_nil_or_head {symbols : List σ} :
    BeginsOutside p symbols ↔ symbols = [] ∨ ∃ c, symbols.head? = some c ∧ p c = false := by
  cases symbols <;> simp [BeginsOutside]

theorem dropWhile (p : σ → Bool) (symbols : List σ) : BeginsOutside p (symbols.dropWhile p) := by
  intro c first
  simpa [Option.mem_def.mp first] using List.head?_dropWhile_not p symbols

theorem dropWhile_append {front rest : List σ} (outside : BeginsOutside p rest)
    (inside : ∀ c ∈ front, p c = true) : (front ++ rest).dropWhile p = rest := by
  rw [List.dropWhile_append_of_pos inside]
  cases rest with
  | nil => rfl
  | cons c rest => simp [cons_iff.mp outside]

/-- Every list is a run of the class, possibly empty, and what begins outside the class. -/
theorem exists_split (p : σ → Bool) (symbols : List σ) :
    ∃ front rest, symbols = front ++ rest ∧ (∀ c ∈ front, p c = true) ∧ BeginsOutside p rest :=
  ⟨symbols.takeWhile p, symbols.dropWhile p, List.takeWhile_append_dropWhile.symm,
    fun _ member => List.mem_takeWhile_imp member, dropWhile p symbols⟩

/-- What stands in front of the end of the class is the longest run. -/
theorem longestRun {front rest : List σ} (outside : BeginsOutside p rest)
    (inside : ∀ c ∈ front, p c = true) : LongestRun p front (front ++ rest) := by
  refine ⟨List.prefix_append front rest, inside, fun other beginning inside' => ?_⟩
  rcases List.prefix_or_prefix_of_prefix beginning (List.prefix_append front rest) with
    shorter | ⟨more, rfl⟩
  · exact shorter
  · cases more with
    | nil => rw [List.append_nil]
    | cons c more =>
      obtain ⟨behind, rfl⟩ := (List.prefix_append_right_inj front).mp beginning
      have refused := cons_iff.mp outside
      rw [inside' c (by simp)] at refused
      cases refused

end BeginsOutside

namespace Parser

variable {σ : Type} {p : σ → Bool}

theorem run_satisfy_cons {c : σ} (inside : p c = true) (budget : Nat) (symbols : List σ) :
    (satisfy p).run budget (.ofList (c :: symbols)) = .single (c, .ofList symbols) := by
  simp [Option.filter_some, inside, Results.ofOption]

theorem run_satisfy_of_outside {symbols : List σ} (outside : BeginsOutside p symbols)
    (budget : Nat) : (satisfy p).run budget (.ofList symbols) = .done := by
  cases symbols with
  | nil => rfl
  | cons c symbols => simp [Option.filter_some, BeginsOutside.cons_iff.mp outside, Results.ofOption]

/-- Following single symbols of a class leads to the first one outside. -/
theorem followFirst_satisfy [DecidableEq σ] (front : List σ) {rest : List σ}
    (inside : ∀ c ∈ front, p c = true) (outside : BeginsOutside p rest) (budget steps : Nat)
    (seen : List σ) (enough : front.length < steps) :
    (satisfy p).followFirst budget steps seen (.ofList (front ++ rest)) =
      some (seen.reverse ++ front, .ofList rest) := by
  induction front generalizing steps seen with
  | nil =>
    obtain ⟨steps, rfl⟩ := Nat.exists_eq_add_one_of_ne_zero (Nat.ne_of_gt enough)
    rw [List.nil_append, followFirst, run_satisfy_of_outside outside, List.append_nil]
  | cons c front ih =>
    obtain ⟨steps, rfl⟩ := Nat.exists_eq_add_one_of_ne_zero (Nat.ne_of_gt (Nat.zero_lt_of_lt enough))
    have later := ih (fun d member => inside d (List.mem_cons_of_mem c member)) steps (c :: seen)
      (Nat.lt_of_succ_lt_succ enough)
    rw [List.cons_append, followFirst, run_satisfy_cons (inside c List.mem_cons_self)]
    simpa [Results.single] using later

end Parser

namespace Recognizer

variable {p : Char → Bool}

theorem run_steady (p : Char → Bool) : (run p).Steady :=
  (Parser.Steady.satisfy p).firstRun1.map _

/-- A budget greater than the length of the run is enough to read it. -/
theorem run_all {front rest : List Char} (some_character : front ≠ [])
    (inside : ∀ c ∈ front, p c = true) (outside : BeginsOutside p rest) {budget : Nat}
    (enough : front.length < budget) :
    (run p).all budget (.ofList (front ++ rest)) = some [(String.ofList front, .ofList rest)] := by
  have followed := Parser.followFirst_satisfy front inside outside budget budget [] enough
  obtain ⟨c, front, rfl⟩ := List.exists_cons_of_ne_nil some_character
  rw [Parser.all, run, Parser.run_map, Parser.firstRun1]
  simp only [followed]
  rfl

theorem run_all_of_outside {text : List Char} (outside : BeginsOutside p text) {budget : Nat}
    (enough : 0 < budget) : (run p).all budget (.ofList text) = some [] := by
  have followed := Parser.followFirst_satisfy [] (by simp) outside budget budget [] enough
  rw [Parser.all, run, Parser.run_map, Parser.firstRun1]
  rw [List.nil_append] at followed
  simp only [followed]
  rfl

/-- A run is read as a whole, up to where the class ends. -/
theorem run_settles {front rest : List Char} (some_character : front ≠ [])
    (inside : ∀ c ∈ front, p c = true) (outside : BeginsOutside p rest) :
    (run p).Settles (.ofList (front ++ rest)) [(String.ofList front, .ofList rest)] := by
  filter_upwards [Filter.eventually_gt_atTop front.length] with budget enough
  exact run_all some_character inside outside enough

theorem run_refuses {text : List Char} (outside : BeginsOutside p text) :
    (run p).Settles (.ofList text) [] := by
  filter_upwards [Filter.eventually_gt_atTop 0] with budget enough
  exact run_all_of_outside outside enough

theorem run_sharpAt (p : Char → Bool) (x : Input Char) : (run p).SharpAt x := by
  obtain ⟨front, rest, split, inside, outside⟩ := BeginsOutside.exists_split p x.symbols
  rw [← Input.ofList_symbols x, split]
  by_cases none : front = []
  · subst none
    exact .inl (run_refuses outside)
  · exact .inr ⟨_, _, run_settles none inside outside, .of_append none rfl⟩

/-- What is read is a whole run: not empty, of the class, and the class ends behind it. -/
theorem exists_run_of_settles {x rest : Input Char} {name : String}
    (read : (run p).Settles x [(name, rest)]) :
    name.toList ≠ [] ∧ (∀ c ∈ name.toList, p c = true) ∧ BeginsOutside p rest.symbols ∧
      x.symbols = name.toList ++ rest.symbols := by
  obtain ⟨front, rest', split, inside, outside⟩ := BeginsOutside.exists_split p x.symbols
  rw [← Input.ofList_symbols x, split] at read
  by_cases none : front = []
  · subst none
    simpa using read.unique (run_refuses outside)
  · obtain ⟨rfl, rfl⟩ := by simpa using read.unique (run_settles none inside outside)
    simpa using ⟨none, inside, outside, split⟩

theorem run_refuses_of_head {x : Input Char} {c : Char} (first : x.head? = some c)
    (outside : p c = false) : (run p).Settles x [] := by
  rw [← Input.ofList_symbols x]
  refine run_refuses fun d member => ?_
  obtain rfl : c = d := Option.some.inj (first.symm.trans member)
  exact outside

/-- A run is read by maximal munch. On every text the recognizer comes to an end, within as many steps
as the text has characters and one more, and no budget gives it other results. It has none exactly if
the text is empty or begins outside the class. Otherwise it has one: the lexeme is the longest beginning
of the text that is of the class throughout, what follows it is left, and there the recognizer
fails. -/
theorem run_is_maximal_munch (p : Char → Bool) (x : Input Char) :
    ∃ rs, (∀ budget, x.size < budget → (run p).all budget x = some rs) ∧
      (∀ budget other, (run p).all budget x = some other → other = rs) ∧
      (rs = [] ↔ x.symbols = [] ∨ ∃ c, x.symbols.head? = some c ∧ p c = false) ∧
      (rs = [] ∨ ∃ lexeme rest, rs = [(lexeme, rest)] ∧ lexeme ≠ "" ∧
        LongestRun p lexeme.toList x.symbols ∧ x.symbols = lexeme.toList ++ rest.symbols ∧
        ∀ budget, rest.size < budget → (run p).all budget rest = some []) := by
  obtain ⟨front, rest, split, inside, outside⟩ := BeginsOutside.exists_split p x.symbols
  obtain rfl : x = .ofList (front ++ rest) := Input.ext split
  have refuses : ∀ budget, (Input.ofList rest).size < budget →
      (run p).all budget (.ofList rest) = some [] := fun budget enough =>
    run_all_of_outside outside (Nat.zero_lt_of_lt enough)
  have kept : ∀ rs, (run p).Settles (.ofList (front ++ rest)) rs → ∀ budget other,
      (run p).all budget (.ofList (front ++ rest)) = some other → other = rs := fun rs settles =>
    (Parser.Answers.of_eventually (fun _ _ _ => (run_steady p).all) settles).only
  rw [← BeginsOutside.iff_nil_or_head]
  by_cases none : front = []
  · subst none
    exact ⟨[], refuses, kept [] (run_refuses outside), by simpa using outside, .inl rfl⟩
  · have begins_inside : ¬ BeginsOutside p (front ++ rest) := by
      obtain ⟨c, front, rfl⟩ := List.exists_cons_of_ne_nil none
      rw [List.cons_append, BeginsOutside.cons_iff, inside c List.mem_cons_self]
      exact Bool.noConfusion
    have reads : ∀ budget, (Input.ofList (front ++ rest)).size < budget →
        (run p).all budget (.ofList (front ++ rest)) =
          some [(String.ofList front, .ofList rest)] := fun budget enough =>
      run_all none inside outside (Nat.lt_of_le_of_lt (by simp [Input.ofList]) enough)
    exact ⟨_, reads, kept _ (run_settles none inside outside), by simpa using begins_inside,
      .inr ⟨_, _, rfl, by simpa using none, by simpa using outside.longestRun inside, by simp,
        refuses⟩⟩

end Recognizer

end AllParses
