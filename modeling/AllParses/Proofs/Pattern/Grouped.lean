import AllParses.Pattern.Reader
import Mathlib.Data.List.TakeWhile
import Mathlib.Data.Option.Basic

/-!
# What stands in front of a closing bracket

The parts of a pattern text are read by functions that take something from the front of the text and
hand back the rest. None of them looks for the end of the text where it succeeds, so each reads the same
when a closing bracket follows the text (`ReadsGrouped`). Two things have to be seen for each function:

* a run of characters ends where it ended before, since it stops at some character of the text or does
  not go on through the bracket (`run_grouped`, `run_grouped_of_not`);
* a text that does not begin with some signs does not begin with them when the bracket is added
  (`not_front_grouped`), so the same case is taken.
-/
namespace AllParses.Pattern

variable {α : Type} {text rest : List Char}

/-- What is read from a text is read from it as well when a closing bracket follows. -/
def ReadsGrouped (read : List Char → Option (α × List Char)) : Prop :=
  ∀ text a rest, read text = some (a, rest) → read (text ++ [')']) = some (a, rest ++ [')'])

/-- A run of characters is the same in front of a closing bracket if it stops before the end of the
text, or else stops at the bracket. -/
theorem takeWhile_grouped {p : Char → Bool}
    (stops : text.drop (text.takeWhile p).length = [] → p ')' = false) :
    (text ++ [')']).takeWhile p = text.takeWhile p := by
  induction text with
  | nil => simp [stops rfl]
  | cons c text ih =>
    rw [List.cons_append, List.takeWhile_cons, List.takeWhile_cons]
    split
    case isTrue inside =>
      rw [ih]
      rwa [List.takeWhile_cons, if_pos inside] at stops
    case isFalse => rfl

theorem drop_grouped {n : Nat} (inside : n ≤ text.length) :
    (text ++ [')']).drop n = text.drop n ++ [')'] :=
  List.drop_append_of_le_length inside

/-- A run that stops at a character is the same in front of a closing bracket, and what follows it
has the bracket behind it. -/
theorem run_grouped {p : Char → Bool} {c : Char}
    (stops : text.drop (text.takeWhile p).length = c :: rest) :
    (text ++ [')']).takeWhile p = text.takeWhile p ∧
      (text ++ [')']).drop (text.takeWhile p).length = c :: (rest ++ [')']) := by
  refine ⟨takeWhile_grouped fun ends => ?_, ?_⟩
  · rw [stops] at ends
    cases ends
  · rw [drop_grouped (List.takeWhile_prefix p).length_le, stops, List.cons_append]

/-- A run that stops at the bracket, wherever it stops in the text. -/
theorem run_grouped_of_not {p : Char → Bool} (stops : p ')' = false) :
    (text ++ [')']).takeWhile p = text.takeWhile p ∧
      (text ++ [')']).drop (text.takeWhile p).length =
        text.drop (text.takeWhile p).length ++ [')'] :=
  ⟨takeWhile_grouped fun _ => stops, drop_grouped (List.takeWhile_prefix p).length_le⟩

/-- Signs that a text does not begin with are not at its front either when a bracket follows, unless
they include the bracket. -/
theorem not_front_grouped {s t : List Char} (other : ∀ more, text ≠ s ++ more)
    (unclosed : ')' ∉ s) :
    text ++ [')'] ≠ s ++ t := by
  intro split
  rcases List.append_eq_append_iff.mp split with ⟨more, front, behind⟩ | ⟨more, front, -⟩
  · cases more with
    | nil => exact other [] (by rw [front, List.append_nil, List.append_nil])
    | cons c more =>
      obtain rfl := (List.cons.inj behind).1
      exact unclosed (front ▸ List.mem_append_right _ List.mem_cons_self)
  · exact other more front

/-! ## Escapes -/

theorem readHex_grouped (width : Nat) : ReadsGrouped (readHex width) := by
  intro text c rest read
  unfold readHex at read
  split at read
  case h_1 text =>
    simp only [Option.bind_eq_bind, Option.bind_eq_some_iff, Option.guard_eq_some',
      Bool.and_eq_true, Bool.not_eq_true', Option.pure_def, Option.some.injEq] at read
    obtain ⟨-, ⟨digits, more⟩, n, number, c, char, same⟩ := read
    obtain ⟨rfl, rfl⟩ := Prod.mk.inj same
    obtain ⟨d, rest, split⟩ := List.exists_cons_of_ne_nil (List.isEmpty_eq_false_iff.mp more)
    obtain ⟨front, back⟩ := run_grouped split
    simp [readHex, front, back, split, digits, number, char, guard]
  case h_2 braceless =>
    simp only [Option.bind_eq_bind, Option.bind_eq_some_iff, Option.guard_eq_some',
      Option.pure_def, Option.some.injEq] at read
    obtain ⟨-, enough, n, number, c, char, same⟩ := read
    obtain ⟨rfl, rfl⟩ := Prod.mk.inj same
    have inside : width ≤ text.length := by
      rw [List.length_take] at enough
      omega
    have front : (text ++ [')']).take width = text.take width :=
      List.take_append_of_le_length inside
    unfold readHex
    split
    case h_1 same => exact absurd same (not_front_grouped (s := ['\x7b']) braceless (by decide))
    case h_2 => simp [front, drop_grouped inside, enough, number, char, guard]

theorem readWordEdge_grouped : ReadsGrouped readWordEdge := by
  intro text b rest read
  unfold readWordEdge at read
  dsimp only at read
  split at read
  case h_1 inner =>
    split at read
    case h_1 => cases read
    case h_2 c more =>
      split at read
      case isTrue nameChar =>
        split at read
        case h_1 behind split =>
          obtain ⟨front, back⟩ := run_grouped split
          rw [List.cons_append] at front back
          simp only [readWordEdge, List.cons_append, if_pos nameChar, front, back]
          split at read <;> cases read <;> rfl
        case h_2 => cases read
      case isFalse notName =>
        cases read
        simp only [readWordEdge, List.cons_append, if_neg notName]
  case h_2 braceless =>
    cases read
    unfold readWordEdge
    split
    case h_1 same => exact absurd same (not_front_grouped (s := ['\x7b']) braceless (by decide))
    case h_2 => rfl

theorem readEscape_grouped : ReadsGrouped readEscape := by
  intro text e rest read
  cases text with
  | nil => cases read
  | cons c text =>
    rw [List.cons_append]
    unfold readEscape at read ⊢
    dsimp only at read ⊢
    split at read
    case h_7 | h_8 | h_9 =>
      obtain ⟨⟨d, behind⟩, hex, same⟩ := Option.map_eq_some_iff.mp read
      cases same
      simp only [readHex_grouped _ _ _ _ hex, Option.map_some]
    case h_18 =>
      obtain ⟨⟨b, behind⟩, edge, same⟩ := Option.map_eq_some_iff.mp read
      cases same
      simp only [readWordEdge_grouped _ _ _ edge, Option.map_some]
    case h_22 =>
      obtain ⟨escapable, same⟩ := Option.ite_none_right_eq_some.mp read
      cases same
      simp only [if_pos escapable]
    all_goals
      cases read
      rfl

/-! ## Classes -/

/-- The sign of negation at the front of a class, and what follows it. -/
def negation : List Char → Bool × List Char
  | '^' :: text => (true, text)
  | text => (false, text)

theorem negation_append (text : List Char) :
    negation (text ++ [')']) = ((negation text).1, (negation text).2 ++ [')']) := by
  cases text with
  | nil => rfl
  | cons c text =>
    by_cases caret : c = '^'
    · subst caret
      rfl
    · simp [negation, caret]

/-- A named class from behind the sign of negation. -/
def namedClass (ignoreCase negated : Bool) (text : List Char) : Option (CharSet × List Char) :=
  let name := text.takeWhile (· != ':')
  match text.drop name.length with
  | ':' :: ']' :: rest => do
    let s ← CharSet.named? (String.ofList name)
    let s := if ignoreCase then s.anyCase else s
    return (if negated then s.compl else s, rest)
  | _ => none

theorem readNamedClass_eq (ignoreCase : Bool) (text : List Char) :
    readNamedClass ignoreCase text = match text with
      | ':' :: text => namedClass ignoreCase (negation text).1 (negation text).2
      | _ => none := rfl

theorem namedClass_append (ignoreCase negated : Bool) (text : List Char) :
    namedClass ignoreCase negated (text ++ [')']) =
      (namedClass ignoreCase negated text).map fun r => (r.1, r.2 ++ [')']) := by
  unfold namedClass
  dsimp only
  cases split : text.drop (text.takeWhile (· != ':')).length with
  | nil =>
    have all : text.takeWhile (· != ':') = text :=
      List.takeWhile_prefix _ |>.eq_of_length_le (List.drop_eq_nil_iff.mp split)
    have inside : ∀ c ∈ text, (c != ':') = true :=
      fun c member => List.mem_takeWhile_imp (p := (· != ':')) (all.symm ▸ member)
    have all' : (text ++ [')']).takeWhile (· != ':') = text ++ [')'] :=
      List.takeWhile_append_of_pos inside
    rw [all', List.drop_length]
    rfl
  | cons c behind =>
    obtain ⟨front, back⟩ := run_grouped split
    rw [front, back]
    cases behind with
    | nil =>
      split
      case h_1 same => cases same
      case h_2 =>
        split
        case h_1 same => cases same
        case h_2 => rfl
    | cons d behind =>
      split
      case h_1 same =>
        cases same
        cases CharSet.named? (String.ofList (text.takeWhile (· != ':'))) <;> rfl
      case h_2 none =>
        split
        case h_1 same =>
          cases same
          exact (none _ rfl).elim
        case h_2 => rfl

/-- A class in double brackets is known as a named one or not, whatever closes the group. -/
theorem readNamedClass_append (ignoreCase : Bool) (text : List Char) :
    readNamedClass ignoreCase (text ++ [')']) =
      (readNamedClass ignoreCase text).map fun r => (r.1, r.2 ++ [')']) := by
  cases text with
  | nil => rfl
  | cons c text =>
    by_cases colon : c = ':'
    · subst colon
      have body := namedClass_append ignoreCase (negation text).1 (negation text).2
      change namedClass ignoreCase (negation (text ++ [')'])).1 (negation (text ++ [')'])).2 =
        (namedClass ignoreCase (negation text).1 (negation text).2).map _
      rw [negation_append, body]
    · simp [readNamedClass_eq, colon]

/-- A class from behind its hyphens. -/
def classFront (negated : Bool) (hyphens text : List Char) : Option (OpenClass × List Char) := do
  guard (!text.isEmpty)
  let opened : OpenClass := { negated := negated }
  let c := hyphens.foldl (fun c hyphen => c.add (.single hyphen) 0) opened
  match hyphens, text with
  | [], ']' :: text =>
    guard (!text.isEmpty)
    return (c.add (.single ']') 0, text)
  | _, text => return (c, text)

theorem classFront_grouped (negated : Bool) (hyphens : List Char) :
    ReadsGrouped (classFront negated hyphens) := by
  intro text c rest read
  unfold classFront at read
  simp only [Option.bind_eq_bind, Option.bind_eq_some_iff, Option.guard_eq_some',
    Bool.not_eq_true'] at read
  obtain ⟨-, more, read⟩ := read
  obtain ⟨d, text, rfl⟩ := List.exists_cons_of_ne_nil (List.isEmpty_eq_false_iff.mp more)
  split at read
  case h_1 split =>
    simp only [Option.bind_eq_some_iff, Option.guard_eq_some'] at read
    obtain ⟨-, more, same⟩ := read
    cases same
    cases split
    simp [classFront, guard]
  case h_2 notBracket =>
    cases read
    unfold classFront
    dsimp only [List.cons_append]
    split
    case h_1 split =>
      cases split
      exact absurd rfl (notBracket _ rfl)
    case h_2 => rfl

theorem openClass_eq (text : List Char) :
    openClass text =
      let (negated, text) := negation text
      let hyphens := text.takeWhile (· = '-')
      classFront negated hyphens (text.drop hyphens.length) := rfl

theorem openClass_grouped : ReadsGrouped openClass := by
  intro text c rest read
  have hyphens := @run_grouped_of_not (negation text).2 (· = '-') rfl
  rw [openClass_eq] at read ⊢
  dsimp only at read ⊢
  rw [negation_append, hyphens.1, hyphens.2]
  exact classFront_grouped _ _ _ _ _ read

theorem readClassItem_grouped : ReadsGrouped readClassItem := by
  intro text e rest read
  unfold readClassItem at read
  split at read
  case h_1 => cases read
  case h_2 text => exact readEscape_grouped text e rest read
  case h_3 c text notEscape =>
    cases read
    simp only [readClassItem, List.cons_append]

theorem readClassRange_grouped : ReadsGrouped readClassRange := by
  intro text s rest read
  unfold readClassRange at read
  simp only [Option.bind_eq_bind, Option.bind_eq_some_iff] at read
  obtain ⟨⟨first, behind⟩, item, read⟩ := read
  have item' := readClassItem_grouped _ _ _ item
  unfold readClassRange
  rw [item']
  dsimp only [Option.bind_eq_bind, Option.bind_some]
  dsimp only at read
  split at read
  case h_1 => cases read
  case h_2 | h_3 =>
    obtain ⟨set, known, same⟩ := Option.bind_eq_some_iff.mp read
    cases same
    simp only [known, Option.bind_some]
    rfl
  case h_4 more noEnd noHyphen =>
    obtain ⟨⟨last, behind⟩, second, ends⟩ := Option.bind_eq_some_iff.mp read
    have second' := readClassItem_grouped _ _ _ second
    rw [List.cons_append]
    split
    case h_1 same => cases same
    case h_2 same =>
      exact absurd (List.cons.inj same).2 (not_front_grouped (s := [']']) noEnd (by decide))
    case h_3 same =>
      exact absurd (List.cons.inj same).2 (not_front_grouped (s := ['-']) noHyphen (by decide))
    case h_4 same =>
      cases same
      rw [second']
      dsimp only [Option.bind_some] at ends ⊢
      split at ends
      case h_1 =>
        obtain ⟨ordered, same⟩ := Option.ite_none_right_eq_some.mp ends
        cases same
        rw [if_pos ordered]
        rfl
      case h_2 => cases ends
    case h_5 plain => exact absurd rfl (plain _)
  case h_5 noEnd _ _ noHyphen =>
    obtain ⟨set, known, same⟩ := Option.bind_eq_some_iff.mp read
    cases same
    split
    case h_1 same =>
      exact absurd same (List.append_ne_nil_of_right_ne_nil _ (List.cons_ne_nil _ _))
    case h_2 same | h_3 same | h_4 same =>
      exact absurd same (not_front_grouped (s := ['-']) noHyphen (by decide))
    case h_5 =>
      rw [known]
      rfl

/-- Reading a class goes on alike with any open classes, and more fuel does no harm. -/
theorem readClassBody_grouped {ignoreCase : Bool} {fuel fuel' : Nat} {inner : OpenClass}
    {outer : List OpenClass} {s : CharSet × Nat}
    (read : readClassBody ignoreCase fuel inner outer text = some (s, rest))
    (enough : fuel ≤ fuel') :
    readClassBody ignoreCase fuel' inner outer (text ++ [')']) = some (s, rest ++ [')']) := by
  induction fuel generalizing fuel' inner outer text with
  | zero => cases read
  | succ fuel ih =>
    obtain ⟨fuel', rfl⟩ :=
      Nat.exists_eq_add_one_of_ne_zero (Nat.ne_of_gt (Nat.zero_lt_of_lt enough))
    have enough' := Nat.le_of_succ_le_succ enough
    unfold readClassBody at read
    split at read
    case h_1 => cases read
    case h_2 text =>
      rw [List.cons_append, readClassBody, readNamedClass_append]
      split at read
      case h_1 known =>
        rw [known]
        exact ih read enough'
      case h_2 unknown =>
        obtain ⟨⟨opened, behind⟩, front, read⟩ := Option.bind_eq_some_iff.mp read
        rw [unknown]
        dsimp only [Option.map_none, Option.bind_eq_bind]
        rw [openClass_grouped _ _ _ front]
        exact ih read enough'
    case h_3 text =>
      rw [List.cons_append, readClassBody]
      dsimp only at read ⊢
      split at read
      case h_1 =>
        cases read
        rfl
      case h_2 => exact ih read enough'
    case h_4 | h_5 | h_6 =>
      rw [List.cons_append, List.cons_append, readClassBody]
      exact ih read enough'
    case h_7 nonempty noOpen noClose noInter noDiff noSymm =>
      obtain ⟨⟨listed, behind⟩, range, read⟩ := Option.bind_eq_some_iff.mp read
      have range' := readClassRange_grouped _ _ _ range
      unfold readClassBody
      split
      case h_1 same =>
        exact absurd same (List.append_ne_nil_of_right_ne_nil _ (List.cons_ne_nil _ _))
      case h_2 same => exact absurd same (not_front_grouped (s := ['[']) noOpen (by decide))
      case h_3 same => exact absurd same (not_front_grouped (s := [']']) noClose (by decide))
      case h_4 same => exact absurd same (not_front_grouped (s := ['&', '&']) noInter (by decide))
      case h_5 same => exact absurd same (not_front_grouped (s := ['-', '-']) noDiff (by decide))
      case h_6 same => exact absurd same (not_front_grouped (s := ['~', '~']) noSymm (by decide))
      case h_7 =>
        rw [range']
        exact ih read enough'

theorem readClass_grouped {ignoreCase : Bool} {fuel fuel' : Nat} {s : CharSet × Nat}
    (read : readClass ignoreCase fuel text = some (s, rest)) (enough : fuel ≤ fuel') :
    readClass ignoreCase fuel' (text ++ [')']) = some (s, rest ++ [')']) := by
  obtain ⟨⟨opened, behind⟩, front, body⟩ := Option.bind_eq_some_iff.mp read
  rw [readClass, openClass_grouped _ _ _ front]
  exact readClassBody_grouped body enough

/-! ## Openings of groups -/

theorem readFlags_grouped (flags : Flags) (seen : List Char) (on fresh : Bool) :
    ReadsGrouped (readFlags · flags seen on fresh) := by
  intro text opening rest read
  dsimp only at read ⊢
  fun_induction readFlags text flags seen on fresh
  case case1 | case2 | case4 | case7 => cases read
  case case3 settled | case5 settled =>
    cases read
    rw [List.cons_append, readFlags, if_neg settled]
  case case6 ih =>
    rw [List.cons_append, readFlags, if_pos rfl]
    exact ih read
  case case8 c text flags seen on noColon noBracket noMinus ih =>
    simp only [Option.bind_eq_bind, Option.bind_eq_some_iff, Option.guard_eq_some'] at read
    obtain ⟨-, unseen, flags', known, read⟩ := read
    rw [List.cons_append, readFlags]
    · simp [unseen, known, guard, ih flags' read]
    · exact noColon
    · exact noBracket
    · exact noMinus

theorem readGroupName_grouped (flags : Flags) : ReadsGrouped (readGroupName flags) := by
  intro text opening rest read
  unfold readGroupName at read ⊢
  dsimp only at read ⊢
  split at read
  case h_1 behind split =>
    obtain ⟨front, back⟩ := run_grouped split
    obtain ⟨named, same⟩ := Option.ite_none_right_eq_some.mp read
    cases same
    simp only [front, back, if_pos named]
  case h_2 => cases read

theorem readOpening_grouped (flags : Flags) : ReadsGrouped (readOpening flags) := by
  intro text opening rest read
  unfold readOpening at read
  split at read
  case h_1 text => exact readGroupName_grouped flags _ _ _ read
  case h_2 | h_3 => cases read
  case h_4 text noBehind noNotBehind =>
    have named := readGroupName_grouped flags _ _ _ read
    unfold readOpening
    dsimp only [List.cons_append]
    split
    case h_1 same => simp at same
    case h_2 same =>
      exact absurd (List.cons.inj (List.cons.inj same).2).2
        (not_front_grouped (s := ['=']) noBehind (by decide))
    case h_3 same =>
      exact absurd (List.cons.inj (List.cons.inj same).2).2
        (not_front_grouped (s := ['!']) noNotBehind (by decide))
    case h_4 same =>
      cases same
      exact named
    case h_5 noName same =>
      cases same
      exact absurd rfl (noName _)
    case h_6 noMark => exact absurd rfl (noMark _)
  case h_5 text noName noBehind noNotBehind noAngle =>
    have flagged := readFlags_grouped flags [] true false _ _ _ read
    unfold readOpening
    dsimp only [List.cons_append]
    split
    case h_1 same =>
      exact absurd (List.cons.inj same).2 (not_front_grouped (s := ['P', '<']) noName (by decide))
    case h_2 same =>
      exact absurd (List.cons.inj same).2 (not_front_grouped (s := ['<', '=']) noBehind (by decide))
    case h_3 same =>
      exact absurd (List.cons.inj same).2
        (not_front_grouped (s := ['<', '!']) noNotBehind (by decide))
    case h_4 same =>
      exact absurd (List.cons.inj same).2 (not_front_grouped (s := ['<']) noAngle (by decide))
    case h_5 same =>
      cases same
      exact flagged
    case h_6 noMark => exact absurd rfl (noMark _)
  case h_6 noName noBehind noNotBehind noAngle noMark =>
    cases read
    unfold readOpening
    split
    case h_1 same | h_2 same | h_3 same | h_4 same | h_5 same =>
      exact absurd same (not_front_grouped (s := ['?']) noMark (by decide))
    case h_6 => rfl

/-! ## Bounds of repetitions -/

theorem dropWhile_grouped {p : Char → Bool} (stops : p ')' = false) (text : List Char) :
    (text ++ [')']).dropWhile p = text.dropWhile p ++ [')'] := by
  induction text with
  | nil => simp [stops]
  | cons c text ih =>
    rw [List.cons_append, List.dropWhile_cons, List.dropWhile_cons]
    split
    case isTrue => exact ih
    case isFalse => rfl

theorem readCount_grouped : ReadsGrouped readCount := by
  intro text n rest read
  unfold readCount at read
  simp only [Option.bind_eq_bind, Option.bind_eq_some_iff, Option.guard_eq_some',
    Option.pure_def, Option.some.injEq] at read
  obtain ⟨-, digits, -, small, same⟩ := read
  obtain ⟨rfl, rfl⟩ := Prod.mk.inj same
  have number := @run_grouped_of_not (text.dropWhile Unicode.isWhiteSpace) Char.isDigit rfl
  have blank := dropWhile_grouped (p := Unicode.isWhiteSpace) rfl
  unfold readCount
  dsimp only
  rw [blank, number.1, number.2, blank]
  simp [digits, small, guard]

theorem readBounds_grouped : ReadsGrouped readBounds := by
  intro text bounds rest read
  unfold readBounds at read
  obtain ⟨⟨min, behind⟩, first, read⟩ := Option.bind_eq_some_iff.mp read
  have first' := readCount_grouped _ _ _ first
  dsimp only at read
  split at read
  case h_1 | h_2 =>
    cases read
    rw [readBounds, first']
    rfl
  case h_3 noBrace =>
    simp only [Option.bind_eq_bind, Option.bind_eq_some_iff, Option.guard_eq_some'] at read
    obtain ⟨⟨max, behind⟩, second, -, ordered, ends⟩ := read
    have second' := readCount_grouped _ _ _ second
    dsimp only at ends
    split at ends
    case h_1 =>
      cases ends
      rw [readBounds, first']
      dsimp only [Option.bind_eq_bind, Option.bind_some, List.cons_append]
      split
      case h_1 same => simp at same
      case h_2 same =>
        exact absurd (List.cons.inj same).2 (not_front_grouped (s := ['\x7d']) noBrace (by decide))
      case h_3 same =>
        cases same
        rw [second']
        simp only [Option.bind_some, List.cons_append, guard, if_pos ordered]
        rfl
      case h_4 noComma => exact absurd rfl (noComma _)
    case h_2 => cases ends
  case h_4 => cases read

theorem readLazyMark_grouped (text : List Char) :
    readLazyMark (text ++ [')']) = ((readLazyMark text).1, (readLazyMark text).2 ++ [')']) := by
  cases text with
  | nil => rfl
  | cons c text =>
    by_cases mark : c = '?'
    · subst mark
      rfl
    · simp [readLazyMark, mark]

end AllParses.Pattern
