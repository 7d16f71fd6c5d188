import AllParses.Json.Standard
import AllParses.Proofs.Json.Number
import AllParses.Proofs.Json.Text

/-!
# Written values are read back

For each form of the standard library, one lemma says how the outcome of reading a written value
follows from the outcomes of its parts. They rest on two facts about what is written: a value begins
with a character by which the reader tells it from the end of its container, and behind a value comes
a comma or the end of the container, at which every reader stops.
-/
namespace AllParses.Json

variable {α β : Type} {c : Char} {text part rest : List Char} {depth fuel : Nat}

theorem skipSpace_cons (visible : isSpace c = false) : skipSpace (c :: text) = c :: text := by
  simp [skipSpace, visible]

theorem BeginsValue.exists_cons (begins : BeginsValue text) :
    ∃ c cs, text = c :: cs ∧ isSpace c = false ∧ c ≠ ']' := by
  cases text with
  | nil => exact begins.elim
  | cons c cs => exact ⟨c, cs, rfl, begins⟩

/-! ## Values without parts -/

theorem reads_text (s : String) : Reads readText (writeText s) (.ok s) where
  begins := ⟨by decide, by decide⟩
  reads rest _ := by
    show readTextBody ((s.toList.flatMap writeChar ++ ['"']) ++ rest) = .ok (s, rest)
    rw [List.append_assoc]
    exact readTextBody_written s rest

theorem reads_bool (b : Bool) : Reads readBool (writeBool b) (.ok b) := by
  cases b with
  | false => exact ⟨⟨by decide, by decide⟩, fun rest _ => rfl⟩
  | true => exact ⟨⟨by decide, by decide⟩, fun rest _ => rfl⟩

theorem reads_size? {n : Option Nat} (small : ∀ m ∈ n, m ≤ maxSize) :
    Reads readSize? (writeSize? n) (.ok n) := by
  cases n with
  | none => exact ⟨⟨by decide, by decide⟩, fun rest _ => rfl⟩
  | some n =>
    have fits : n ≤ maxSize := small n rfl
    obtain ⟨c, digits, written, digit⟩ := exists_writeSize_eq_cons n
    have no_bracket : c ≠ ']' := by
      rintro rfl
      exact absurd digit (by decide)
    constructor
    case begins =>
      rw [writeSize?, written]
      exact ⟨isSpace_of_isDigit digit, no_bracket⟩
    case reads =>
      intro rest ends
      exact readSize?_writeSize fits ends

/-- A text that holds nothing but a written value is read as a whole. -/
theorem Reads.readWhole? {value : Nat → Reader α} {outcome : Except Fault α}
    (reads : Reads (value maxDepth) text outcome) : readWhole? value text = outcome := by
  have read := reads.reads [] trivial
  rw [List.append_nil] at read
  cases outcome with
  | error fault => simp [Json.readWhole?, read]
  | ok a => simp [Json.readWhole?, read, skipSpace]

/-! ## Parts -/

/-- What is written for parts: for all of a container, or for those behind its first one. -/
def writeRest (first : Bool) (parts : List (List Char)) : List Char :=
  if first then writeParts parts else parts.flatMap fun part => ',' :: part

@[simp] theorem writeRest_nil (first : Bool) : writeRest first [] = [] := by
  cases first <;> rfl

theorem writeRest_next (part : List Char) (parts : List (List Char)) :
    writeRest false (part :: parts) = ',' :: (part ++ writeRest false parts) := by
  simp [writeRest]

theorem writeRest_first (part : List Char) (parts : List (List Char)) :
    writeRest true (part :: parts) = part ++ writeRest false parts := by
  induction parts generalizing part with
  | nil => simp [writeRest, writeParts]
  | cons next parts ih =>
    have two : writeRest true (part :: next :: parts) =
        part ++ ',' :: writeRest true (next :: parts) := by
      simp [writeRest, writeParts, List.intercalate]
    rw [two, ih, writeRest_next]

/-- Behind each part comes a comma or the end of the container. -/
theorem endsValue_writeRest (parts : List (List Char)) (close : c = ']' ∨ c = '\x7d') :
    EndsValue (writeRest false parts ++ c :: rest) := by
  cases parts with
  | nil => exact .inr close
  | cons part parts => exact .inl rfl

/-- Every part has a comma, or the first one has none and the end of the container stands for it. -/
theorem length_le_writeRest (first : Bool) (parts : List (List Char)) :
    parts.length ≤ (writeRest first parts ++ c :: rest).length := by
  have commas : ∀ more : List (List Char), more.length ≤ (writeRest false more).length := by
    intro more
    induction more with
    | nil => exact Nat.le_refl _
    | cons part more ih =>
      rw [writeRest_next]
      simp only [List.length_cons, List.length_append]
      omega
  cases parts with
  | nil => exact Nat.zero_le _
  | cons part parts =>
    have behind := commas parts
    cases first <;>
    · simp only [writeRest_next, writeRest_first, List.length_cons, List.length_append]
      omega

/-! ## Arrays -/

theorem nextElement_written (first : Bool) (begins : BeginsValue part) (parts : List (List Char))
    (rest : List Char) :
    nextElement first (writeRest first (part :: parts) ++ rest) =
      .ok (some (), part ++ (writeRest false parts ++ rest)) := by
  obtain ⟨c, cs, rfl, visible, no_bracket⟩ := begins.exists_cons
  cases first with
  | true => simp [writeRest_first, nextElement, skipSpace_cons visible]
  | false =>
    have comma : isSpace ',' = false := by decide
    simp [writeRest_next, nextElement, skipSpace_cons comma, skipSpace_cons visible, no_bracket]

section Arrays

variable {write : β → List Char} {outcome : β → Except Fault α} {items : List β}

/-- Elements are read in turn, until one of them has a fault. -/
theorem readElements_written {element : Reader α}
    (each : ∀ b ∈ items, Reads element (write b) (outcome b)) (enough : items.length ≤ fuel)
    (first : Bool) (seen : List α) (rest : List Char) :
    readElements element (fuel + 1) first seen (writeRest first (items.map write) ++ ']' :: rest) =
      (items.mapM outcome).map fun as => (seen.reverse ++ as, rest) := by
  induction items generalizing fuel first seen with
  | nil =>
    have no_more : nextElement first (']' :: rest) = .ok (none, rest) := rfl
    simp [readElements, no_more]
  | cons b items ih =>
    rw [List.length_cons] at enough
    obtain ⟨fuel, rfl⟩ : ∃ less, fuel = less + 1 := Nat.exists_eq_add_one_of_ne_zero (by omega)
    obtain ⟨reads, others⟩ := List.forall_mem_cons.mp each
    have ends : EndsValue (writeRest false (items.map write) ++ ']' :: rest) :=
      endsValue_writeRest _ (.inl rfl)
    rw [List.map_cons, readElements, nextElement_written first reads.begins, List.mapM_cons]
    simp only [ok_bind, reads.reads _ ends]
    cases outcome b with
    | error fault => rfl
    | ok a =>
      have later := ih others (Nat.le_of_succ_le_succ enough) false (a :: seen)
      simp only [map_ok, ok_bind, later]
      cases items.mapM outcome with
      | error fault => rfl
      | ok as => simp

/-- An array is read by reading its elements in turn. -/
theorem reads_array {element : Nat → Reader α}
    (each : ∀ b ∈ items, Reads (element depth) (write b) (outcome b)) :
    Reads (readArray (depth + 1) element) (writeArray (items.map write)) (items.mapM outcome) where
  begins := ⟨by decide, by decide⟩
  reads rest _ := by
    show readElements (element depth) (((writeParts (items.map write) ++ [']']) ++ rest).length + 1)
      true [] ((writeParts (items.map write) ++ [']']) ++ rest) = _
    rw [List.append_assoc, List.singleton_append]
    have enough : (items.map write).length ≤ (writeParts (items.map write) ++ ']' :: rest).length :=
      length_le_writeRest true _
    rw [List.length_map] at enough
    exact readElements_written each enough true [] rest

/-- With no level of depth left, no array is read. -/
theorem reads_array_zero (element : Nat → Reader α) (parts : List (List Char)) :
    Reads (readArray 0 element) (writeArray parts) (.error .malformed) where
  begins := ⟨by decide, by decide⟩
  reads _ _ := rfl

end Arrays

/-! ## Objects -/

/-- A member as it is written. -/
def writeMember (member : String × List Char) : List Char :=
  writeText member.1 ++ ':' :: member.2

/-- Members are taken one after the other, from what has been gathered before to what comes of all
of them: the first fault, or what has been gathered behind the last one. -/
inductive Gathers (take : α → String → Reader α) :
    α → List (String × List Char) → Except Fault α → Prop
  | done (a : α) : Gathers take a [] (.ok a)
  | member {a b : α} {key : String} {text : List Char} {members : List (String × List Char)}
      {outcome : Except Fault α}
      (taken : ∀ rest, EndsValue rest → take a key (':' :: (text ++ rest)) = .ok (b, rest))
      (more : Gathers take b members outcome) : Gathers take a ((key, text) :: members) outcome
  | fault {a : α} {key : String} {text : List Char} {members : List (String × List Char)}
      {fault : Fault}
      (taken : ∀ rest, EndsValue rest → take a key (':' :: (text ++ rest)) = .error fault) :
      Gathers take a ((key, text) :: members) (.error fault)

section Objects

variable {take : α → String → Reader α} {members : List (String × List Char)} {a : α}
  {outcome : Except Fault α}

theorem nextKey_written (first : Bool) (key : String) (value : List Char)
    (parts : List (List Char)) (rest : List Char) :
    nextKey first (writeRest first (writeMember (key, value) :: parts) ++ rest) =
      .ok (some key, ':' :: (value ++ (writeRest false parts ++ rest))) := by
  have read := readTextBody_written key (':' :: (value ++ (writeRest false parts ++ rest)))
  cases first with
  | true =>
    simp (disch := decide) [writeRest_first, writeMember, writeText, nextKey, readKey,
      skipSpace_cons, read]
  | false =>
    simp (disch := decide) [writeRest_next, writeMember, writeText, nextKey, readKey,
      skipSpace_cons, read]

/-- One member is taken, and then those behind it. -/
theorem readMembers_next (first : Bool) (key : String) (value : List Char)
    (parts : List (List Char)) (rest : List Char) :
    readMembers take (fuel + 1) first a
        (writeRest first (writeMember (key, value) :: parts) ++ rest) =
      take a key (':' :: (value ++ (writeRest false parts ++ rest))) >>= fun r =>
        readMembers take fuel false r.1 r.2 := by
  rw [readMembers, nextKey_written]
  rfl

theorem readMembers_written (gathers : Gathers take a members outcome)
    (enough : members.length ≤ fuel) (first : Bool) (rest : List Char) :
    readMembers take (fuel + 1) first a
        (writeRest first (members.map writeMember) ++ '\x7d' :: rest) =
      outcome.map fun b => (b, rest) := by
  have ends : ∀ parts : List (List Char), EndsValue (writeRest false parts ++ '\x7d' :: rest) :=
    fun parts => endsValue_writeRest parts (.inr rfl)
  induction gathers generalizing fuel first with
  | done a =>
    have no_more : nextKey first ('\x7d' :: rest) = .ok (none, rest) := rfl
    simp [readMembers, no_more]
  | member taken more ih =>
    rw [List.length_cons] at enough
    obtain ⟨fuel, rfl⟩ : ∃ less, fuel = less + 1 := Nat.exists_eq_add_one_of_ne_zero (by omega)
    rw [List.map_cons, readMembers_next, taken _ (ends _), ok_bind]
    exact ih (Nat.le_of_succ_le_succ enough) false
  | fault taken =>
    rw [List.map_cons, readMembers_next, taken _ (ends _), error_bind, map_error]

/-- The members of a whole object are read from behind its brace. -/
theorem readMembers_writeObject (gathers : Gathers take a members outcome)
    (spelled : writeObject members ++ rest = '\x7b' :: text) :
    readMembers take (text.length + 1) true a text = outcome.map fun b => (b, rest) := by
  obtain rfl : writeRest true (members.map writeMember) ++ '\x7d' :: rest = text := by
    rw [← List.singleton_append, ← List.append_assoc]
    exact (List.cons.inj spelled).2
  have enough : (members.map writeMember).length ≤
      (writeRest true (members.map writeMember) ++ '\x7d' :: rest).length :=
    length_le_writeRest true _
  rw [List.length_map] at enough
  exact readMembers_written gathers enough true rest

theorem readColon_written (text : List Char) : readColon (':' :: text) = .ok text := rfl

end Objects

section Maps

variable {take : List (String × α) → String → Reader (List (String × α))} {value : Reader α}
  {write : α → List Char} {entries : List (String × α)}

/-- The entries of a map are gathered from the last one to the first. -/
theorem gathers_entries
    (takes : ∀ seen key text, take seen key (':' :: text) =
      (value text).map fun r => ((key, r.1) :: seen, r.2))
    (each : ∀ e ∈ entries, Reads value (write e.2) (.ok e.2)) (seen : List (String × α)) :
    Gathers take seen (entries.map fun e => (e.1, write e.2)) (.ok (entries.reverse ++ seen)) := by
  induction entries generalizing seen with
  | nil => exact .done seen
  | cons e entries ih =>
    obtain ⟨reads, others⟩ := List.forall_mem_cons.mp each
    rw [List.reverse_cons, List.append_assoc, List.singleton_append]
    refine .member (fun rest ends => ?_) (ih others (e :: seen))
    rw [takes, reads.reads rest ends]
    rfl

/-- A map is read by reading its values in turn. -/
theorem reads_map {value : Nat → Reader α}
    (each : ∀ e ∈ entries, Reads (value depth) (write e.2) (.ok e.2)) :
    Reads (readMap (depth + 1) value)
      (writeObject (entries.map fun e => (e.1, write e.2))) (.ok entries) where
  begins := ⟨by decide, by decide⟩
  reads rest _ := by
    obtain ⟨text, spelled⟩ :
        ∃ text, writeObject (entries.map fun e => (e.1, write e.2)) ++ rest = '\x7b' :: text :=
      ⟨_, rfl⟩
    rw [spelled]
    simp (disch := decide) only [readMap, skipSpace_cons]
    rw [readMembers_writeObject (gathers_entries _ each []) spelled]
    · simp
    · intro seen key text
      cases read : value depth text with
      | error fault => simp [readColon_written, read]
      | ok r => simp [readColon_written, read]

end Maps

section Records

variable {fields : Nat → List (RecordField α)} {take : α → String → Reader α}

/-- Behind a key, `take` reads the field of this name, if it has not been read before. -/
def TakesFields (fields : List (RecordField α)) (take : α → String → Reader α) : Prop :=
  ∀ ⦃a key field⦄, fields.find? (·.name = key) = some field → field.isSet a = false →
    ∀ text, take a key (':' :: text) = field.read a text

/-- Fields that are filled one after the other are gathered. -/
theorem Fills.gathers {known : List (RecordField α)} {start : α}
    {members : List (String × List Char)} {outcome : Except Fault α}
    (fills : Fills known start members outcome) (takes : TakesFields known take) :
    Gathers take start members outcome := by
  induction fills with
  | done a => exact .done a
  | field found unset reads more ih =>
    refine .member (fun rest ends => ?_) ih
    rw [takes found unset]
    exact reads.reads rest ends
  | fault found unset reads =>
    refine .fault fun rest ends => ?_
    rw [takes found unset]
    exact reads.reads rest ends

/-- With no level of depth left, no record is read. -/
theorem reads_record_zero {start : α} (members : List (String × List Char)) :
    Reads (readRecord 0 fields start) (writeObject members) (.error .malformed) where
  begins := ⟨by decide, by decide⟩
  reads _ _ := rfl

/-- A record is read by reading its members in turn. -/
theorem reads_record {start : α} {members : List (String × List Char)} {outcome : Except Fault α}
    (fills : Fills (fields depth) start members outcome) :
    Reads (readRecord (depth + 1) fields start) (writeObject members) outcome where
  begins := ⟨by decide, by decide⟩
  reads rest _ := by
    obtain ⟨text, spelled⟩ : ∃ text, writeObject members ++ rest = '\x7b' :: text := ⟨_, rfl⟩
    rw [spelled]
    simp (disch := decide) only [readRecord, skipSpace_cons]
    refine readMembers_writeObject (fills.gathers ?_) spelled
    intro a key field found unset text
    simp [found, unset, readColon_written]

end Records

/-! ## Variants -/

section Variants

variable {content : String → Option (Reader α)} {bare : String → Option α} {name : String}

/-- The content of a variant is read by the reader of its name. -/
theorem reads_variant {reader : Reader α} {outcome : Except Fault α}
    (named : content name = some reader) (reads : Reads reader text outcome) :
    Reads (readVariant (depth + 1) content bare) (writeObject [(name, text)]) outcome where
  begins := ⟨by decide, by decide⟩
  reads rest _ := by
    have key := readTextBody_written name (':' :: (text ++ '\x7d' :: rest))
    have read := reads.reads ('\x7d' :: rest) (.inr (.inr rfl))
    have spelled : writeObject [(name, text)] ++ rest = '\x7b' :: '"' ::
        (name.toList.flatMap writeChar ++ '"' :: ':' :: (text ++ '\x7d' :: rest)) := by
      simp [writeObject, writeParts, writeText]
    rw [spelled]
    cases outcome with
    | error fault =>
      simp (disch := decide) [readVariant, skipSpace_cons, readKey, readColon_written, key, named,
        read]
    | ok a =>
      simp (disch := decide) [readVariant, skipSpace_cons, readKey, readColon_written, key, named,
        read]

/-- A variant without content is read from its name alone. -/
theorem reads_bare {a : α} (named : bare name = some a) :
    Reads (readVariant depth content bare) (writeText name) (.ok a) where
  begins := ⟨by decide, by decide⟩
  reads rest _ := by
    have read := readTextBody_written name rest
    have spelled : writeText name ++ rest =
        '"' :: (name.toList.flatMap writeChar ++ '"' :: rest) := by
      simp [writeText]
    rw [spelled]
    simp (disch := decide) [readVariant, skipSpace_cons, read, named]

end Variants

end AllParses.Json
