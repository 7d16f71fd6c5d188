import AllParses.Proofs.Json.Container

/-!
# The standard library is as documented

Each law is the lemma about its form. A record that has been read is complete when the fields that
have to be there were given (`reads_completed`).
-/
namespace AllParses.Json

variable {α β : Type} {depth : Nat} {fields : Nat → List (RecordField α)} {start : α}
  {complete? : α → Option β} {text : List Char}

/-- What is read for a record is the value that it makes up. -/
theorem reads_completed {a : α} {b : β} (complete : complete? a = some b)
    (reads : Reads (readRecord depth fields start) text (.ok a)) :
    Reads (standard.readRecord depth fields start complete?) text (.ok b) where
  begins := reads.begins
  reads rest ends := by
    simp [standard, reads.reads rest ends, complete]

/-- A fault in a record is passed on. -/
theorem reads_completed_fault {fault : Fault}
    (reads : Reads (readRecord depth fields start) text (.error fault)) :
    Reads (standard.readRecord depth fields start complete?) text (.error fault) where
  begins := reads.begins
  reads rest ends := by
    simp [standard, reads.reads rest ends]

theorem standard_documented : standard.Documented where
  text := reads_text
  bool := reads_bool
  size? := reads_size?
  array := reads_array
  array_zero {α element} elements := reads_array_zero element elements
  map {α depth value write entries} _ each := by
    have table : tableOf entries = .ofList entries := Std.ExtTreeMap.ofList_eq_foldl.symm
    rw [← table]
    exact (reads_map each).map tableOf
  record fills complete := reads_completed complete (reads_record fills)
  record_fault fills := reads_completed_fault (reads_record fills)
  record_zero members := reads_completed_fault (reads_record_zero members)
  variant named reads := by
    show Reads (readVariant _ _ fun _ => none) (writeObject _) _
    exact reads_variant named reads
  bareVariant named := by
    show Reads (readVariant _ (emptyContent _) _) (writeText _) _
    exact reads_bare named
  whole := Reads.readWhole?

end AllParses.Json
