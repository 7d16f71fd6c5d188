import AllParses.Pattern.Normal
import AllParses.Proofs.Pattern.Search

/-!
# The programs of patterns

The program of a sequence has the instructions of its items one behind the other, and bringing the
sequence into normal form does not change this (`instructions_sequence`).

Where an instruction goes is said relative to its own place, and none goes in front of the program that
it belongs to (`contained`). So a program that stands behind a condition runs there as it does by itself,
one place further on (`Accepts.of_check`).
-/
namespace AllParses.Pattern

/-! ## Programs that are not left in front -/

/-- How far the instruction may lead, forwards or backwards. -/
def Instruction.distances : Instruction → List Int
  | .consume _ | .check _ => []
  | .split preferred other => [preferred, other]
  | .jump distance => [distance]

/-- With `n` instructions in front of these, none of them leads in front of all. -/
def StayBehind : Nat → List Instruction → Prop
  | _, [] => True
  | n, i :: is => (∀ distance ∈ i.distances, 0 ≤ (n : Int) + distance) ∧ StayBehind (n + 1) is

namespace StayBehind

variable {n m : Nat} {is js : List Instruction}

theorem nil (n : Nat) : StayBehind n [] :=
  trivial

theorem mono (stay : StayBehind n is) (more : n ≤ m) : StayBehind m is := by
  induction is generalizing n m with
  | nil => trivial
  | cons i is ih =>
    refine ⟨fun distance member => ?_, ih stay.2 (Nat.succ_le_succ more)⟩
    have bound := stay.1 distance member
    omega

theorem append (first : StayBehind n is) (second : StayBehind (n + is.length) js) :
    StayBehind n (is ++ js) := by
  induction is generalizing n with
  | nil => exact second
  | cons i is ih =>
    refine ⟨first.1, ih first.2 ?_⟩
    rwa [Nat.add_right_comm, Nat.add_assoc]

theorem getElem? (stay : StayBehind n is) {address : Nat} {i : Instruction}
    (reached : is[address]? = some i) :
    ∀ distance ∈ i.distances, 0 ≤ ((n + address : Nat) : Int) + distance := by
  induction is generalizing n address with
  | nil => cases reached
  | cons j is ih =>
    cases address with
    | zero =>
      obtain rfl := Option.some.inj reached
      exact stay.1
    | succ address =>
      have later := ih stay.2 reached
      rwa [Nat.add_right_comm, Nat.add_assoc] at later

end StayBehind

/-- No instruction of the block leads in front of the block. -/
def Block.Contained (b : Block) : Prop :=
  StayBehind 0 b.instructions

namespace Block.Contained

variable {a b : Block}

theorem skip : Block.skip.Contained :=
  trivial

/-- One instruction that does not lead back. -/
theorem one {i : Instruction} (forwards : ∀ distance ∈ i.distances, 0 ≤ distance) :
    (Block.one i).Contained :=
  ⟨fun distance member => by simpa using forwards distance member, trivial⟩

theorem append (first : a.Contained) (second : b.Contained) : (a.append b).Contained :=
  StayBehind.append first (StayBehind.mono second (Nat.zero_le _))

theorem cons {i : Instruction} (forwards : ∀ distance ∈ i.distances, 0 ≤ distance)
    (rest : b.Contained) : (b.cons i).Contained :=
  (one forwards).append rest

theorem forwards_choose (greedy : Bool) {more enough : Int} (one : 0 ≤ more) (other : 0 ≤ enough) :
    ∀ distance ∈ (choose greedy more enough).distances, 0 ≤ distance := by
  cases greedy <;> simp [choose, Instruction.distances, one, other]

theorem alt (first : a.Contained) (second : b.Contained) : (a.alt b).Contained := by
  refine cons ?_ (first.append (cons ?_ second))
  · simp only [Instruction.distances, List.forall_mem_cons]
    exact ⟨by omega, by omega, by simp⟩
  · simp only [Instruction.distances, List.forall_mem_singleton]
    omega

theorem optional (greedy : Bool) (body : a.Contained) : (a.optional greedy).Contained :=
  cons (forwards_choose greedy (by omega) (by omega)) body

/-- The choice behind the body leads back to its beginning. -/
theorem repeated (greedy : Bool) (body : a.Contained) : (a.repeated greedy).Contained := by
  refine StayBehind.append body ⟨?_, trivial⟩
  rw [a.length_eq]
  cases greedy <;> simp [choose, Instruction.distances] <;> omega

theorem star (greedy : Bool) (body : a.Contained) : (a.star greedy).Contained := by
  refine ⟨?_, StayBehind.append (body.mono (Nat.zero_le _)) ⟨?_, trivial⟩⟩
  · have forwards := @forwards_choose greedy 1 (a.length + 2) (by omega) (by omega)
    simpa using forwards
  · rw [a.length_eq]
    simp only [Instruction.distances, List.forall_mem_singleton]
    omega

theorem exactly (body : a.Contained) (n : Nat) : (a.exactly n).Contained := by
  unfold Block.exactly
  induction n with
  | zero => exact skip
  | succ n ih => exact body.append ih

theorem atMost (greedy : Bool) (body : a.Contained) (n : Nat) : (a.atMost greedy n).Contained := by
  unfold Block.atMost
  induction n with
  | zero => exact skip
  | succ n ih => exact (body.append ih).optional greedy

theorem atLeast (greedy isConsuming : Bool) (body : a.Contained) (n : Nat) :
    (a.atLeast greedy isConsuming n).Contained := by
  cases n with
  | zero =>
    rw [Block.atLeast]
    split
    · exact body.star greedy
    · exact (body.repeated greedy).optional greedy
  | succ n => exact (body.exactly n).append (body.repeated greedy)

end Block.Contained

theorem stayBehind_literal (cs : List Char) (n : Nat) :
    StayBehind n (cs.map fun c => .consume (.single c)) := by
  induction cs generalizing n with
  | nil => trivial
  | cons c cs ih => exact ⟨by simp [Instruction.distances], ih (n + 1)⟩

/-- The program of a pattern is not left in front. -/
theorem contained (p : Pattern) : p.block.Contained := by
  induction p with
  | literal cs => exact stayBehind_literal cs 0
  | oneOf set => exact .one (by simp [Instruction.distances])
  | check b => exact .one (by simp [Instruction.distances])
  | seq p q first second => exact first.append second
  | alt p q first second => exact first.alt second
  | times p min max greedy body =>
    cases max with
    | none => exact body.atLeast greedy p.isConsuming min
    | some max => exact (body.exactly min).append (body.atMost greedy (max - min))
  | group p body => exact body

/-! ## Programs behind a condition -/

section

variable {text : List Char} {i : Instruction} {is : List Instruction}

theorem target_succ {address : Nat} {distance : Int} (stays : 0 ≤ (address : Int) + distance) :
    target (address + 1) distance = target address distance + 1 := by
  unfold target
  omega

/-- Behind one more instruction each step is the same step. -/
theorem Step.of_cons (stay : StayBehind 0 is) {address place : Nat} {b : Nat × Nat}
    (step : Step (i :: is).toArray text (address + 1, place) b) :
    ∃ further, b.1 = further + 1 ∧ Step is.toArray text (address, place) (further, b.2) := by
  have same : (i :: is).toArray[address + 1]? = is.toArray[address]? := by simp
  have leads : ∀ {j}, is.toArray[address]? = some j → ∀ distance ∈ j.distances,
      target (address + 1) distance = target address distance + 1 := by
    intro j reached distance member
    have bound := stay.getElem? (by simpa using reached) distance member
    exact target_succ (by simpa using bound)
  have next : target (address + 1) 1 = target address 1 + 1 := target_succ (by omega)
  cases step with
  | consume reached read inside => exact ⟨_, next, .consume (same ▸ reached) read inside⟩
  | check reached holds => exact ⟨_, next, .check (same ▸ reached) holds⟩
  | preferred reached =>
    rw [same] at reached
    exact ⟨_, leads reached _ (by simp [Instruction.distances]), .preferred reached⟩
  | other reached =>
    rw [same] at reached
    exact ⟨_, leads reached _ (by simp [Instruction.distances]), .other reached⟩
  | jump reached =>
    rw [same] at reached
    exact ⟨_, leads reached _ (by simp [Instruction.distances]), .jump reached⟩

theorem Steps.of_cons (stay : StayBehind 0 is) {address place : Nat} {b : Nat × Nat}
    (steps : Steps (i :: is).toArray text (address + 1, place) b) :
    ∃ further, b.1 = further + 1 ∧ Steps is.toArray text (address, place) (further, b.2) := by
  induction steps with
  | refl => exact ⟨address, rfl, .refl⟩
  | @tail reached _ earlier step ih =>
    obtain ⟨middle, same, steps⟩ := ih
    obtain ⟨address, place⟩ := reached
    obtain rfl : address = middle + 1 := same
    obtain ⟨further, last, step⟩ := Step.of_cons stay step
    exact ⟨further, last, steps.tail step⟩

/-- What matches a condition and a program behind it matches the program, and the condition holds where
it begins. -/
theorem Accepts.of_check {b : Boundary} {m : Match} (stay : StayBehind 0 is)
    (accepts : Accepts (.check b :: is).toArray text m) :
    b.holds (charBefore text m.first) text[m.first]? = true ∧ Accepts is.toArray text m := by
  obtain ⟨within, address, ends, steps⟩ := accepts
  rcases steps.cases_head with same | ⟨middle, step, later⟩
  · obtain ⟨rfl, -⟩ := Prod.mk.inj same
    simp at ends
  · have first : (.check b :: is).toArray[0]? = some (.check b) := rfl
    cases step with
    | check reached holds =>
      obtain rfl := Instruction.check.inj (Option.some.inj (first.symm.trans reached))
      obtain ⟨further, same, steps⟩ := Steps.of_cons stay later
      obtain rfl : address = further + 1 := same
      exact ⟨holds, within, further, by simpa using ends, steps⟩
    | consume reached | preferred reached | other reached | jump reached =>
      exact absurd (first.symm.trans reached) (by simp)

end

/-! ## Instructions of sequences -/

/-- The instructions of a pattern. -/
def instructions (p : Pattern) : List Instruction :=
  p.block.instructions

theorem instructions_seq (p q : Pattern) :
    (seq p q).instructions = p.instructions ++ q.instructions := rfl

theorem instructions_items (p : Pattern) : p.items.flatMap instructions = p.instructions := by
  induction p with
  | literal cs =>
    cases cs with
    | nil => rfl
    | cons c cs => simp [items]
  | seq p q first second => rw [items, List.flatMap_append, first, second, instructions_seq]
  | oneOf | check | alt | times | group => simp [items]

theorem instructions_pushItem (p : Pattern) (ps : List Pattern) :
    (pushItem p ps).flatMap instructions = p.instructions ++ ps.flatMap instructions := by
  unfold pushItem
  split
  · simp [instructions, block, Block.ofList]
  · rfl

theorem chain?_cons (op : Pattern → Pattern → Pattern) (p : Pattern) (ps : List Pattern) :
    chain? op (p :: ps) = some ((chain? op ps).elim p (op p)) := by
  unfold chain?
  rw [List.reverse_cons]
  cases ps.reverse with
  | nil => rfl
  | cons last front => simp

theorem instructions_chain (ps : List Pattern) :
    ((chain? seq ps).getD empty).instructions = ps.flatMap instructions := by
  induction ps with
  | nil => rfl
  | cons p ps ih =>
    rw [chain?_cons, Option.getD_some, List.flatMap_cons, ← ih]
    cases chain? seq ps with
    | none => simp [instructions, empty, block, Block.ofList]
    | some rest => rfl

/-- Bringing a sequence into normal form keeps its instructions. -/
theorem instructions_sequence (ps : List Pattern) :
    (sequence ps).instructions = ps.flatMap instructions := by
  rw [sequence, instructions_chain]
  have pushed : ∀ qs : List Pattern,
      (qs.foldr pushItem []).flatMap instructions = qs.flatMap instructions := by
    intro qs
    induction qs with
    | nil => rfl
    | cons q qs ih => rw [List.foldr_cons, instructions_pushItem, ih, List.flatMap_cons]
  rw [pushed, List.flatMap_assoc]
  simp only [instructions_items]

end AllParses.Pattern
