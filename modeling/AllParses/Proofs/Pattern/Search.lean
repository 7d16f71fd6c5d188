import AllParses.Pattern.Search
import Mathlib.Data.List.Basic
import Mathlib.Logic.Relation

/-!
# What a search finds

A program goes from instruction to instruction and from place to place of the text (`Step`). It matches
a part of the text when it goes from its first instruction at the one end past its last instruction at
the other end (`Accepts`).

A search follows such ways side by side. What it keeps of them are threads, and a thread has come from
the place where it has begun (`Thread.HasCome`). Neither following threads nor a character changes
this, so what is found is matched (`search_accepts`). Threads that are dropped need no argument here:
nothing is said about matches that are not found.
-/
namespace AllParses.Pattern

variable {program : Array Instruction} {text : List Char}

/-- The character before a place. -/
def charBefore (text : List Char) (place : Nat) : Option Char :=
  (text.take place).getLast?

/-- The instruction `distance` further on. -/
def target (address : Nat) (distance : Int) : Nat :=
  ((address : Int) + distance).toNat

/-- One step of a program, from an instruction and a place of the text to others. -/
inductive Step (program : Array Instruction) (text : List Char) : Nat × Nat → Nat × Nat → Prop where
  | consume {address place : Nat} {set : CharSet} {c : Char}
    (reached : program[address]? = some (.consume set)) (next : text[place]? = some c)
    (inside : set.contains c = true) :
    Step program text (address, place) (target address 1, place + 1)
  | check {address place : Nat} {b : Boundary} (reached : program[address]? = some (.check b))
    (holds : b.holds (charBefore text place) text[place]? = true) :
    Step program text (address, place) (target address 1, place)
  | preferred {address place : Nat} {preferred other : Int}
    (reached : program[address]? = some (.split preferred other)) :
    Step program text (address, place) (target address preferred, place)
  | other {address place : Nat} {preferred other : Int}
    (reached : program[address]? = some (.split preferred other)) :
    Step program text (address, place) (target address other, place)
  | jump {address place : Nat} {distance : Int}
    (reached : program[address]? = some (.jump distance)) :
    Step program text (address, place) (target address distance, place)

/-- Some number of steps. -/
abbrev Steps (program : Array Instruction) (text : List Char) : Nat × Nat → Nat × Nat → Prop :=
  Relation.ReflTransGen (Step program text)

/-- The program goes through this part of the text and past its own end. -/
def Accepts (program : Array Instruction) (text : List Char) (m : Match) : Prop :=
  m.first ≤ text.length ∧
    ∃ address, program[address]? = none ∧ Steps program text (0, m.first) (address, m.last)

theorem Step.inside {a b : Nat × Nat} (step : Step program text a b) (within : a.2 ≤ text.length) :
    a.2 ≤ b.2 ∧ b.2 ≤ text.length := by
  cases step with
  | consume reached next inside =>
    obtain ⟨bound, -⟩ := List.getElem?_eq_some_iff.mp next
    exact ⟨Nat.le_succ _, bound⟩
  | check | preferred | other | jump => exact ⟨Nat.le_refl _, within⟩

/-- What is matched is a part of the text. -/
theorem Accepts.inside {m : Match} (accepts : Accepts program text m) :
    m.first ≤ m.last ∧ m.last ≤ text.length := by
  obtain ⟨within, address, -, steps⟩ := accepts
  generalize shape : (address, m.last) = a at steps
  have bounds : m.first ≤ a.2 ∧ a.2 ≤ text.length := by
    clear shape
    induction steps with
    | refl => exact ⟨Nat.le_refl _, within⟩
    | tail earlier step ih =>
      have later := step.inside ih.2
      exact ⟨Nat.le_trans ih.1 later.1, later.2⟩
  rwa [← shape] at bounds

/-! ## Threads -/

/-- The thread has come to its instruction at this place from where it has begun. -/
def Thread.HasCome (program : Array Instruction) (text : List Char) (place : Nat) (t : Thread) : Prop :=
  t.origin ≤ text.length ∧ Steps program text (0, t.origin) (t.address, place)

theorem Thread.HasCome.move {place further : Nat} {t : Thread} {distance : Int}
    (come : t.HasCome program text place)
    (step : Step program text (t.address, place) (target t.address distance, further)) :
    (t.move distance).HasCome program text further :=
  ⟨come.1, come.2.tail step⟩

/-- The threads that wait have come to this place, and what is accepted is matched up to it. -/
structure Settled.HasCome (settled : Settled) (program : Array Instruction) (text : List Char)
    (place : Nat) : Prop where
  waiting : ∀ t ∈ settled.waiting, t.HasCome program text place
  accepted : ∀ origin, settled.accepted = some origin → Accepts program text ⟨origin, place⟩

theorem Settled.HasCome.of_waits {place : Nat} {waiting : List Thread} {accepted : Option Nat}
    {seen : Marks} (waits : ∀ t ∈ waiting, t.HasCome program text place)
    (accepts : ∀ origin, accepted = some origin → Accepts program text ⟨origin, place⟩) :
    Settled.HasCome ⟨waiting.reverse, accepted, seen⟩ program text place :=
  ⟨fun t member => waits t (List.mem_reverse.mp member), accepts⟩

/-- Following threads does not lead away from where they have come from. -/
theorem settle_hasCome {place fuel : Nat} {pending waiting : List Thread} {seen : Marks}
    (come : ∀ t ∈ pending, t.HasCome program text place)
    (waits : ∀ t ∈ waiting, t.HasCome program text place) :
    (settle program (charBefore text place) text[place]? fuel pending seen waiting).HasCome program
      text place := by
  fun_induction settle program (charBefore text place) text[place]? fuel pending seen waiting
  case case1 | case2 => exact .of_waits waits (by simp)
  case case3 | case7 =>
    rename_i ih
    exact ih (List.forall_mem_cons.mp come).2 waits
  case case4 t _ _ _ _ _ reached =>
    have first := (List.forall_mem_cons.mp come).1
    refine .of_waits waits fun origin accepted => ?_
    obtain rfl := Option.some.inj accepted
    exact ⟨first.1, t.address, reached, first.2⟩
  case case5 ih =>
    obtain ⟨first, others⟩ := List.forall_mem_cons.mp come
    exact ih others (List.forall_mem_cons.mpr ⟨first, waits⟩)
  case case6 reached holds ih =>
    obtain ⟨first, others⟩ := List.forall_mem_cons.mp come
    exact ih (List.forall_mem_cons.mpr ⟨first.move (.check reached holds), others⟩) waits
  case case8 reached ih =>
    obtain ⟨first, others⟩ := List.forall_mem_cons.mp come
    exact ih (List.forall_mem_cons.mpr ⟨first.move (.preferred reached),
      List.forall_mem_cons.mpr ⟨first.move (.other reached), others⟩⟩) waits
  case case9 reached ih =>
    obtain ⟨first, others⟩ := List.forall_mem_cons.mp come
    exact ih (List.forall_mem_cons.mpr ⟨first.move (.jump reached), others⟩) waits

/-- A character leads to the next place. -/
theorem hasCome_of_mem_step? {place : Nat} {threads : List Thread} {c : Char}
    (next : text[place]? = some c) (come : ∀ t ∈ threads, t.HasCome program text place) :
    ∀ t ∈ threads.filterMap (·.step? program c), t.HasCome program text (place + 1) := by
  intro t member
  obtain ⟨waiting, among, steps⟩ := List.mem_filterMap.mp member
  unfold Thread.step? at steps
  split at steps
  case h_1 reached =>
    obtain ⟨inside, same⟩ := Option.ite_none_right_eq_some.mp steps
    cases same
    exact (come waiting among).move (.consume reached next inside)
  case h_2 => cases steps

/-! ## The search -/

/-- A match that is accepted ends at this place; otherwise the one found before stays. -/
theorem accepts_of_accepted {place : Nat} {settled : Settled} {found : Option Match} {m : Match}
    (come : settled.HasCome program text place) (before : ∀ m, found = some m → Accepts program text m)
    (known : (match settled.accepted with
      | some origin => some ⟨origin, place⟩
      | none => found) = some m) : Accepts program text m := by
  split at known
  case h_1 origin accepted =>
    cases known
    exact come.accepted origin accepted
  case h_2 => exact before m known

/-- A new thread has come nowhere yet. -/
theorem hasCome_joined {place : Nat} {threads : List Thread} (found : Option Match)
    (within : place ≤ text.length) (come : ∀ t ∈ threads, t.HasCome program text place) :
    ∀ t ∈ if found.isNone then threads ++ [⟨0, place⟩] else threads,
      t.HasCome program text place := by
  intro t member
  split at member
  case isTrue =>
    rcases List.mem_append.mp member with old | new
    · exact come t old
    · rw [List.mem_singleton.mp new]
      exact ⟨within, .refl⟩
  case isFalse => exact come t member

/-- Between what lies behind and what lies ahead the threads are followed as at any place. -/
theorem settle_hasCome_between {front rest : List Char} {fuel : Nat} {pending : List Thread}
    {seen : Marks} (come : ∀ t ∈ pending, t.HasCome program (front ++ rest) front.length) :
    (settle program front.getLast? rest.head? fuel pending seen []).HasCome program (front ++ rest)
      front.length := by
  have behind : charBefore (front ++ rest) front.length = front.getLast? := by
    rw [charBefore, List.take_left]
  have ahead : (front ++ rest)[front.length]? = rest.head? := by
    rw [List.getElem?_append_right (Nat.le_refl _), Nat.sub_self, List.head?_eq_getElem?]
  rw [← behind, ← ahead]
  exact settle_hasCome come (by simp)

/-- The induction is on what is left of the text behind `front`. -/
theorem searchFrom_accepts {front rest : List Char} {threads : List Thread} {seen : Marks}
    {found : Option Match} (come : ∀ t ∈ threads, t.HasCome program (front ++ rest) front.length)
    (before : ∀ m, found = some m → Accepts program (front ++ rest) m) :
    ∀ m, searchFrom program front.length front.getLast? threads seen found rest = some m →
      Accepts program (front ++ rest) m := by
  induction rest generalizing front threads seen found with
  | nil =>
    intro m known
    have joined := hasCome_joined found (by simp) come
    unfold searchFrom at known
    dsimp only at known
    generalize (if found.isNone then threads ++ [⟨0, front.length⟩] else threads) = all at joined known
    split at known
    case isTrue => exact before m known
    case isFalse => exact accepts_of_accepted (settle_hasCome_between joined) before known
  | cons c rest ih =>
    intro m known
    have joined := hasCome_joined found (by simp) come
    have next : (front ++ c :: rest)[front.length]? = some c := by simp
    have longer : front ++ c :: rest = (front ++ [c]) ++ rest := by simp
    unfold searchFrom at known
    dsimp only at known
    generalize (if found.isNone then threads ++ [⟨0, front.length⟩] else threads) = all at joined known
    split at known
    case isTrue => exact before m known
    case isFalse =>
      have settled : (settle program front.getLast? (some c) (all.length + 2 * program.size + 1) all
          seen.clear []).HasCome program (front ++ c :: rest) front.length :=
        settle_hasCome_between joined
      have stepped := hasCome_of_mem_step? next settled.waiting
      have accepted := fun m => @accepts_of_accepted _ _ _ _ _ m settled before
      have size : front.length + 1 = (front ++ [c]).length := by simp
      have last : some c = (front ++ [c]).getLast? := by simp
      rw [size, last] at known
      rw [longer] at stepped accepted ⊢
      rw [size] at stepped
      exact ih stepped accepted m known

/-- What a search finds is matched. -/
theorem search_accepts {m : Match} (found : search program text = some m) :
    Accepts program text m :=
  @searchFrom_accepts program [] text _ _ _ (by simp) (by simp) m found

end AllParses.Pattern
