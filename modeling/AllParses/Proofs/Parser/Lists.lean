import AllParses.Proofs.Parser.Query
import AllParses.Proofs.Parser.Runs
import AllParses.Proofs.Recognizer

/-!
# Lists

A list is an item and what a repetition of separators with items collects behind it. The empty list
is the answer to an item that fails, and never one result among others (`sepBy_settles`). What is
repeated are steps of a separator and an item, so the lists are the scans `ItemsAt`, and these are
read off the runs of the repetition.

Words of a class of characters have one reading where a mark outside the class stands between them
(`sepBy_words_settles`). They can be followed word by word. The first result of a list takes all of
them, and where a shorter one ends the separator follows. So nothing but the first result is a parse
of the whole text, and nothing else is left when a closing bracket is asked for
(`lists_read_back`).
-/
namespace AllParses.Parser

variable {σ α β : Type}

/-! ## Scans of items and separators -/

section Scans

variable {items : Input σ → List (α × Input σ)} {separators : Input σ → List (β × Input σ)}

/-- From `x` on items follow, each of them behind a separator, up to `rest`. Every step but possibly
the last one consumes something. -/
inductive FurtherItems (items : Input σ → List (α × Input σ))
    (separators : Input σ → List (β × Input σ)) : Input σ → List α → Input σ → Prop where
  | stop (x : Input σ) : FurtherItems items separators x [] x
  | step {x mid next rest : Input σ} {mark : β} {v : α} {vs : List α}
    (separator : (mark, mid) ∈ separators x) (item : (v, next) ∈ items mid)
    (moves : vs ≠ [] → next ≠ x) (later : FurtherItems items separators next vs rest) :
    FurtherItems items separators x (v :: vs) rest

/-- The values are those of the items in a scan with separators between them. -/
def ItemsAt (items : Input σ → List (α × Input σ)) (separators : Input σ → List (β × Input σ))
    (x : Input σ) (values : List α) (rest : Input σ) : Prop :=
  ∃ v mid others, values = v :: others ∧ (v, mid) ∈ items x ∧
    FurtherItems items separators mid others rest

/-- The items behind a separator. -/
def separated (items : Input σ → List (α × Input σ)) (separators : Input σ → List (β × Input σ))
    (x : Input σ) : List (α × Input σ) :=
  (separators x).flatMap fun r => items r.2

theorem mem_separated_iff {x next : Input σ} {v : α} :
    (v, next) ∈ separated items separators x ↔
      ∃ mark mid, (mark, mid) ∈ separators x ∧ (v, next) ∈ items mid := by
  simp [separated]

/-- Further items are what runs of separators with items collect. -/
theorem furtherItems_iff_exists_run {x rest : Input σ} {values : List α} :
    FurtherItems items separators x values rest ↔
      ∃ run, IsRun (separated items separators) x run ∧ run.outcome = (values, rest) := by
  constructor
  · intro further
    induction further with
    | stop x => exact ⟨.stop x, .stop x, rfl⟩
    | @step x mid next rest mark v vs separator item moves later ih =>
      obtain ⟨run, isRun, collects⟩ := ih
      obtain ⟨rfl, rfl⟩ := Prod.mk.inj collects
      have member := mem_separated_iff.mpr ⟨mark, mid, separator, item⟩
      obtain ⟨i, chosen⟩ := List.getElem?_of_mem member
      exact ⟨run.cons i v,
        .step chosen (fun more => moves (isRun.choices_eq_nil_iff.not.mp more)) isRun, rfl⟩
  · rintro ⟨run, isRun, collects⟩
    induction isRun generalizing values with
    | stop x =>
      obtain ⟨rfl, rfl⟩ := Prod.mk.inj collects
      exact .stop x
    | @step x next i v run chosen moves isRun ih =>
      obtain ⟨rfl, left⟩ := Prod.mk.inj collects
      obtain ⟨mark, mid, separator, item⟩ := mem_separated_iff.mp (List.mem_of_getElem? chosen)
      exact .step separator item (fun more => moves (isRun.choices_eq_nil_iff.not.mpr more))
        (ih (congrArg (Prod.mk run.values) left))

end Scans

section Settled

variable [DecidableEq σ] {item : Parser σ α} {separator : Parser σ β} {x : Input σ}
  {items : Input σ → List (α × Input σ)} {separators : Input σ → List (β × Input σ)}

/-- The results for all scans, for one first item after the other. -/
def scanResults (items : Input σ → List (α × Input σ)) (separators : Input σ → List (β × Input σ))
    (x : Input σ) : List (List α × Input σ) :=
  (items x).flatMap fun r =>
    (runsWithin (separated items separators) (r.2.size + 1) r.2).map fun run =>
      (r.1 :: run.values, run.rest)

theorem scanResults_ne_nil (some_item : items x ≠ []) : scanResults items separators x ≠ [] := by
  obtain ⟨r, others, shape⟩ := List.exists_cons_of_ne_nil some_item
  simp [scanResults, shape, runsWithin]

variable (safe : item.SuffixSafe) (separator_safe : separator.SuffixSafe)
  (read : ∀ y, item.Settles y (items y)) (splits : ∀ y, separator.Settles y (separators y))

omit [DecidableEq σ] in
include read splits in
theorem separated_settles (y : Input σ) :
    (separator.skipThen item).Settles y (separated items separators y) :=
  (splits y).skipThen (fun r => items r.2) fun r _ => read r.2

include safe separator_safe read splits

theorem mem_scanResults_iff {values : List α} {rest : Input σ} :
    (values, rest) ∈ scanResults items separators x ↔ ItemsAt items separators x values rest := by
  have step_safe : (separator.skipThen item).SuffixSafe := separator_safe.skipThen safe
  have members : ∀ y run, run ∈ runsWithin (separated items separators) (y.size + 1) y ↔
      IsRun (separated items separators) y run := fun y run =>
    mem_runs_iff step_safe (separated_settles read splits) .of_refl
  simp only [scanResults, List.mem_flatMap, List.mem_map, members, ItemsAt,
    furtherItems_iff_exists_run]
  constructor
  · rintro ⟨⟨v, mid⟩, first, run, isRun, collects⟩
    obtain ⟨rfl, rfl⟩ := Prod.mk.inj collects
    exact ⟨v, mid, run.values, rfl, first, run, isRun, rfl⟩
  · rintro ⟨v, mid, others, rfl, first, run, isRun, collects⟩
    obtain ⟨rfl, rfl⟩ := Prod.mk.inj collects
    exact ⟨(v, mid), first, run, isRun, rfl⟩

/-- The fallback is asked exactly where the item has no result. -/
theorem sepBy_settles (x : Input σ) :
    (item.sepBy separator).Settles x
      (if items x = [] then [([], x)] else scanResults items separators x) := by
  have step_safe : (separator.skipThen item).SuffixSafe := separator_safe.skipThen safe
  have runs : ∀ y, (separator.skipThen item).many.Settles y
      ((runsWithin (separated items separators) (y.size + 1) y).map Run.outcome) := fun y =>
    (settlesMany_runsWithin step_safe (separated_settles read splits) .of_refl
      (Nat.lt_succ_self y.size)).settles
  have scanned := ((read x).andThen _ fun r _ => runs r.2).map fun scan => scan.1 :: scan.2
  -- An item without results makes the scan fail. One with a result makes it succeed, if with nothing
  -- behind the item, and then the fallback has no part in it.
  split
  case isTrue none =>
    rw [none] at scanned
    exact scanned.orElse_nil (.succeed [] x)
  case isFalse some_item =>
    obtain ⟨result, others, shape⟩ := List.exists_cons_of_ne_nil (scanResults_ne_nil some_item)
    have all : ((item.andThen (separator.skipThen item).many).map fun scan =>
        scan.1 :: scan.2).Settles x (scanResults items separators x) := by
      simpa only [scanResults, List.map_flatMap, List.map_map, Function.comp_def, Run.outcome]
        using scanned
    rw [shape] at all ⊢
    exact all.orElse

end Settled

/-! ## Words with a mark between them -/

section Words

variable {p : Char → Bool} {mark : Char} {words : List String} {tail : List Char}

/-- The word has characters, and all of them are of the class. -/
def IsWord (p : Char → Bool) (word : String) : Prop :=
  word ≠ "" ∧ ∀ c ∈ word.toList, p c = true

/-- The text of further words, each of them behind the mark. -/
def furtherText (mark : Char) (words : List String) : List Char :=
  words.flatMap fun word => mark :: word.toList

theorem intercalate_cons (mark : Char) (word : String) (words : List String) :
    [mark].intercalate ((word :: words).map String.toList) =
      word.toList ++ furtherText mark words := by
  induction words generalizing word with
  | nil => simp [furtherText]
  | cons next words ih =>
    rw [List.map_cons, List.map_cons, List.intercalate_cons_cons, ← List.map_cons, ih]
    simp [furtherText]

theorem beginsOutside_furtherText (outside : p mark = false) (ends : BeginsOutside p tail)
    (words : List String) : BeginsOutside p (furtherText mark words ++ tail) := by
  cases words with
  | nil => exact ends
  | cons word words => exact BeginsOutside.cons_iff.mpr outside

theorem IsWord.run_settles {word : String} (isWord : IsWord p word) (ends : BeginsOutside p tail) :
    (Recognizer.run p).Settles (.ofList (word.toList ++ tail)) [(word, .ofList tail)] := by
  have some_character : word.toList ≠ [] := fun none =>
    isWord.1 (String.toList_eq_nil_iff.mp none)
  have read := Recognizer.run_settles some_character isWord.2 ends
  rwa [String.ofList_toList] at read

/-- The steps of a mark and a word are followed through all words, up to where no mark stands. -/
theorem exists_iterates_furtherText (outside : p mark = false) (ends : BeginsOutside p tail)
    (unmarked : tail.head? ≠ some mark) (each : ∀ word ∈ words, IsWord p word) :
    ∃ steps, ((symbol mark).skipThen (Recognizer.run p)).Iterates
      (.ofList (furtherText mark words ++ tail)) steps (.ofList tail) ∧
        steps.map Prod.fst = words := by
  induction words with
  | nil =>
    have refused : (symbol mark).Settles (.ofList tail) [] := symbol_refuses unmarked
    exact ⟨[], .stop refused.skipThen_nil, rfl⟩
  | cons word words ih =>
    obtain ⟨steps, later, values⟩ := ih fun other member => each other (List.mem_cons_of_mem _ member)
    have text : furtherText mark (word :: words) ++ tail =
        mark :: (word.toList ++ (furtherText mark words ++ tail)) := by
      simp [furtherText]
    have passed : (symbol mark).Settles (.ofList (furtherText mark (word :: words) ++ tail))
        [(mark, .ofList (word.toList ++ (furtherText mark words ++ tail)))] :=
      symbol_settles text
    have read := (each word List.mem_cons_self).run_settles
      (beginsOutside_furtherText outside ends words)
    have proper : (Input.ofList (furtherText mark words ++ tail)).ProperSuffix
        (.ofList (furtherText mark (word :: words) ++ tail)) := by
      refine .of_append (List.cons_ne_nil mark word.toList) ?_
      simp [text]
    exact ⟨_, .step (passed.skipThen_single read) proper later, by rw [List.map_cons, values]⟩

/-- A step begins with the mark. -/
theorem head?_of_step {x : Input Char}
    (goes_on : ∃ v mid, ((symbol mark).skipThen (Recognizer.run p)).Settles x [(v, mid)]) :
    x.head? = some mark := by
  by_contra other
  obtain ⟨v, mid, read⟩ := goes_on
  simpa using read.unique (symbol_refuses other).skipThen_nil

/-- All words are the first result. Where the list is shorter the mark follows. -/
theorem sepBy_words_settles (outside : p mark = false) (ends : BeginsOutside p tail)
    (unmarked : tail.head? ≠ some mark) (each : ∀ word ∈ words, IsWord p word) :
    ∃ partials, ((Recognizer.run p).sepBy (symbol mark)).Settles
        (.ofList ([mark].intercalate (words.map String.toList) ++ tail))
        ((words, .ofList tail) :: partials) ∧
      ∀ r ∈ partials, r.2.head? = some mark := by
  cases words with
  | nil =>
    have refused := (Recognizer.run_refuses ends).andThen_nil
      (q := ((symbol mark).skipThen (Recognizer.run p)).many)
    have scanned := refused.map fun scan => scan.1 :: scan.2
    exact ⟨[], scanned.orElse_nil (.succeed [] _), by simp⟩
  | cons word words =>
    have others : ∀ other ∈ words, IsWord p other := fun other member =>
      each other (List.mem_cons_of_mem _ member)
    obtain ⟨steps, iterates, rfl⟩ := exists_iterates_furtherText outside ends unmarked others
    obtain ⟨partials, whole, go_on⟩ := iterates.beginnings_eq
    have read := (each word List.mem_cons_self).run_settles
      (beginsOutside_furtherText outside ends (steps.map Prod.fst))
    have runs := iterates.settlesMany.settles
    rw [whole] at runs
    have scanned := (read.andThen_single runs).map fun scan => scan.1 :: scan.2
    rw [intercalate_cons, List.append_assoc]
    -- A result is a beginning of the way with the first word in front. Where it is not the whole way a
    -- further step is there, and a step needs the mark.
    refine ⟨_, scanned.orElse, fun r member => ?_⟩
    obtain ⟨t, longer, rfl⟩ := List.mem_map.mp member
    obtain ⟨run, among, rfl⟩ := List.mem_map.mp longer
    exact head?_of_step (go_on run among)

/-- Words with marks between them are the only parse of their text. -/
theorem completeParses_words (outside : p mark = false) (each : ∀ word ∈ words, IsWord p word) :
    ∀ᶠ budget in Filter.atTop, ((Recognizer.run p).sepBy (symbol mark)).CompleteParses budget
      (.ofList ([mark].intercalate (words.map String.toList))) [words] := by
  have ends : BeginsOutside p [] := by simp [BeginsOutside]
  have unmarked : ([] : List Char).head? ≠ some mark := by simp
  obtain ⟨partials, settles, marked⟩ := sepBy_words_settles outside ends unmarked each
  have unfinished : partials.filter (fun r => r.2.isEmpty) = [] := by
    refine List.filter_eq_nil_iff.mpr fun r member whole => ?_
    have nothing := List.isEmpty_iff.mp whole
    have first := marked r member
    rw [Input.head?, nothing] at first
    cases first
  have only : ((words, Input.ofList ([] : List Char)) :: partials).filter (fun r => r.2.isEmpty) =
      [(words, .ofList [])] := by
    rw [List.filter_cons_of_pos rfl, unfinished]
  rw [List.append_nil] at settles
  filter_upwards [settles] with budget all
  have parses := completeParses_of_all all
  rwa [only] at parses

/-- Behind an opening bracket the closing one follows the words and no shorter list. -/
theorem completeParses_inBrackets (outside : p mark = false) (closing : p ']' = false)
    (distinct : mark ≠ ']') (each : ∀ word ∈ words, IsWord p word) :
    ∀ᶠ budget in Filter.atTop,
      (inBrackets ((Recognizer.run p).sepBy (symbol mark))).CompleteParses budget
        (.ofList ('[' :: ([mark].intercalate (words.map String.toList) ++ [']']))) [words] := by
  have ends : BeginsOutside p [']'] := BeginsOutside.cons_iff.mpr closing
  have unmarked : [']'].head? ≠ some mark := fun same => distinct (Option.some.inj same).symm
  obtain ⟨partials, settles, marked⟩ := sepBy_words_settles outside ends unmarked each
  have opened : (symbol '[').Settles
      (.ofList ('[' :: ([mark].intercalate (words.map String.toList) ++ [']'])))
      [('[', .ofList ([mark].intercalate (words.map String.toList) ++ [']']))] := symbol_settles rfl
  have closed : (symbol ']').Settles (.ofList [']']) [(']', .ofList [])] := symbol_settles rfl
  have dead : ∀ r ∈ partials, (symbol ']').Settles r.2 [] := by
    intro r member
    refine symbol_refuses fun closes => distinct ?_
    exact Option.some.inj ((marked r member).symm.trans closes)
  have whole := (opened.skipThen_single settles).thenSkip_first closed dead
  filter_upwards [whole] with budget all
  exact completeParses_of_all all

end Words

/-- Words over a class without the marks are read back from their text, with commas or semicolons
between them and also in brackets, and this is the only parse of the text. Of any items and
separators a list gives the empty list exactly where no item can be read. It is the only result then,
and nothing is consumed. Otherwise the results are the scans of items with separators between
them. -/
theorem lists_read_back :
    (∀ (p : Char → Bool) (words : List String), p ',' = false → p ';' = false → p ']' = false →
      (∀ word ∈ words, IsWord p word) → ∀ᶠ budget in Filter.atTop,
        (commaSeparated (Recognizer.run p)).CompleteParses budget
          (.ofString (",".intercalate words)) [words] ∧
        (semicolonSeparated (Recognizer.run p)).CompleteParses budget
          (.ofString (";".intercalate words)) [words] ∧
        (inBrackets (commaSeparated (Recognizer.run p))).CompleteParses budget
          (.ofString ("[" ++ ",".intercalate words ++ "]")) [words]) ∧
    ∀ {σ α β : Type} [DecidableEq σ] (item : Parser σ α) (separator : Parser σ β)
      (items : Input σ → List (α × Input σ)) (separators : Input σ → List (β × Input σ)),
      item.SuffixSafe → separator.SuffixSafe →
      (∀ y, item.Settles y (items y)) → (∀ y, separator.Settles y (separators y)) →
      ∀ x, ∃ rs, (item.sepBy separator).Settles x rs ∧
        ((∃ rest, ([], rest) ∈ rs) ↔ items x = []) ∧ (items x = [] → rs = [([], x)]) ∧
        (items x ≠ [] → ∀ values rest,
          (values, rest) ∈ rs ↔ ItemsAt items separators x values rest) := by
  constructor
  · intro p words comma semicolon closing each
    filter_upwards [completeParses_words comma each, completeParses_words semicolon each,
      completeParses_inBrackets comma closing (by decide) each] with budget commas semicolons brackets
    have text : ∀ mark : String, Input.ofString (mark.intercalate words) =
        .ofList (mark.toList.intercalate (words.map String.toList)) := by
      intro mark
      rw [Input.ofString, String.toList_intercalate]
    have bracketed : Input.ofString ("[" ++ ",".intercalate words ++ "]") =
        .ofList ('[' :: ([','].intercalate (words.map String.toList) ++ [']'])) := by
      rw [Input.ofString, String.toList_append, String.toList_append, String.toList_intercalate]
      rfl
    rw [text, text, bracketed]
    exact ⟨commas, semicolons, brackets⟩
  · intro σ α β _ item separator items separators safe separator_safe read splits x
    refine ⟨_, sepBy_settles safe separator_safe read splits x, ?empty, ?refused, ?scans⟩
    case refused => exact fun none => if_pos none
    case scans =>
      intro some_item values rest
      rw [if_neg some_item]
      exact mem_scanResults_iff safe separator_safe read splits
    case empty =>
      constructor
      · rintro ⟨rest, member⟩
        by_contra some_item
        rw [if_neg some_item] at member
        obtain ⟨v, mid, others, longer, -⟩ :=
          (mem_scanResults_iff safe separator_safe read splits).mp member
        cases longer
      · intro none
        rw [if_pos none]
        exact ⟨x, List.mem_singleton_self _⟩

/-- Every character but the marks of lists. -/
def unmarked (c : Char) : Bool :=
  c ≠ ',' && c ≠ ';' && c ≠ ']'

/-- An opening bracket or a space may be part of a word, and without words there is nothing between
the brackets. Where commas may be left out, `a,aa` has a scan up to its end, and on `b`, where no
letter `a` can be read, there is nothing but the empty list. -/
theorem odd_lists_read_back :
    (∀ᶠ budget in Filter.atTop,
      (inBrackets (commaSeparated (Recognizer.run unmarked))).CompleteParses budget
        (.ofString "[a[b, ]") [["a[b", " "]]) ∧
    (∀ᶠ budget in Filter.atTop,
      (inBrackets (commaSeparated (Recognizer.run unmarked))).CompleteParses budget
        (.ofString "[]") [[]]) ∧
    (∃ rs, ((symbol 'a').sepBy (symbol ',').optional).Settles (.ofString "a,aa") rs ∧
      (['a', 'a', 'a'], .ofString "") ∈ rs) ∧
    ((symbol 'a').sepBy (symbol ',').optional).Settles (.ofString "b") [([], .ofString "b")] := by
  obtain ⟨words, scans⟩ := lists_read_back
  have one : ∀ c, ∀ y : Input Char, (symbol c).Settles y
      ((y.head?.filter fun d => d = c).map fun d => (d, y.tail)).toList :=
    fun c y => .of_run fun _ => Results.toList?_ofOption _
  have splits := fun y => ((one ',' y).map some).either (Settles.succeed none y)
  have lists := scans (symbol 'a') (symbol ',').optional _ _ (.symbol 'a')
    (SuffixSafe.symbol ',').optional (one 'a') splits
  refine ⟨?words, ?empty, ?scan, ?refused⟩
  case words =>
    have each : ∀ word ∈ ["a[b", " "], IsWord unmarked word := by
      simp [IsWord, unmarked]
    exact (words unmarked _ rfl rfl rfl each).mono fun _ parses => parses.2.2
  case empty =>
    exact (words unmarked [] rfl rfl rfl (by simp)).mono fun _ parses => parses.2.2
  case scan =>
    obtain ⟨rs, settles, -, -, members⟩ := lists (.ofString "a,aa")
    refine ⟨rs, settles, (members (List.cons_ne_nil _ _) _ _).mpr ?_⟩
    have moves : Input.ofString "a" ≠ .ofString ",aa" := fun same =>
      absurd (congrArg Input.size same) (by decide)
    exact ⟨'a', .ofString ",aa", ['a', 'a'], rfl, .head _,
      .step (.head _) (.head _) (fun _ => moves)
        (.step (.head _) (.head _) (absurd rfl) (.stop _))⟩
  case refused =>
    obtain ⟨rs, settles, -, refused, -⟩ := lists (.ofString "b")
    rwa [refused rfl] at settles

end AllParses.Parser
