import AllParses.Json.Forms
import AllParses.Proofs.Json.Standard

/-!
# Round trips through JSON

With any library for JSON that is as documented, the readers of symbols, options, grammars and trees
find in a written value the value itself. A grammar is found whatever the order in which the entries
of its map are written, since its names are distinct. A node of a tree opens two containers, one for
itself and one for its children, so a tree is read as long as twice its height is no more than the
number of containers that may be open, and is refused otherwise (`ParseTree.reads_toJson`).
-/
namespace AllParses

open Json

/-! ## Maps -/

namespace Grammar

/-- The names of a map are distinct, in whatever order its entries are taken. -/
theorem nodup_names_of_perm {g : Grammar} {entries : List Rule}
    (perm : entries.Perm g.alternativesOf.toList) : (entries.map Prod.fst).Nodup := by
  have distinct : (g.alternativesOf.toList.map Prod.fst).Nodup := by
    refine List.pairwise_map.mpr (Std.ExtTreeMap.distinct_keys_toList.imp ?_)
    rintro a b differ same
    exact differ (same ▸ Std.ReflCmp.compare_self)
  exact (perm.map Prod.fst).nodup_iff.mpr distinct

/-- A map is made of its entries, in whatever order they are put in. -/
theorem ofList_of_perm {g : Grammar} {entries : List Rule}
    (perm : entries.Perm g.alternativesOf.toList) :
    Std.ExtTreeMap.ofList entries = g.alternativesOf := by
  have distinct : entries.Pairwise fun a b => ¬ compare a.1 b.1 = .eq := by
    refine (List.pairwise_map.mp (nodup_names_of_perm perm)).imp ?_
    rintro a b differ same
    exact differ (Std.LawfulEqCmp.eq_of_compare same)
  apply Std.ExtTreeMap.ext_getElem?
  intro name
  cases found : g.alternativesOf[name]? with
  | some alternatives =>
    have entry := perm.mem_iff.mpr (Std.ExtTreeMap.mem_toList_iff_getElem?_eq_some.mpr found)
    exact Std.ExtTreeMap.getElem?_ofList_of_mem Std.ReflCmp.compare_self distinct entry
  | none =>
    have missing : name ∉ entries.map Prod.fst := by
      intro entry
      obtain ⟨rule, member, rfl⟩ := List.mem_map.mp entry
      have found' := Std.ExtTreeMap.mem_toList_iff_getElem?_eq_some.mp (perm.mem_iff.mp member)
      simp [found] at found'
    exact Std.ExtTreeMap.getElem?_ofList_of_contains_eq_false (by simpa using missing)

end Grammar

/-! ## Heights -/

namespace ParseTree

mutual

/-- The number of nodes on the longest path from the root. -/
def height : ParseTree → Nat
  | node _ children => heightAll children + 1

/-- The greatest height of several trees. -/
def heightAll : List ParseTree → Nat
  | [] => 0
  | t :: ts => max t.height (heightAll ts)

end

theorem heightAll_le_iff {ts : List ParseTree} {n : Nat} :
    heightAll ts ≤ n ↔ ∀ t ∈ ts, t.height ≤ n := by
  induction ts with
  | nil => simp [heightAll]
  | cons t ts ih => simp only [heightAll, Nat.max_le, List.forall_mem_cons, ih]

theorem forestToJson_eq_map (json : Library) (ts : List ParseTree) :
    forestToJson json ts = ts.map fun t => t.toJson json := by
  induction ts with
  | nil => rfl
  | cons t ts ih => rw [forestToJson, ih, List.map_cons]

/-- Of several values, all are read or none is. -/
theorem mapM_ite {ts : List ParseTree} {fits : ParseTree → Prop} [DecidablePred fits]
    {fault : Fault} :
    (ts.mapM fun t => if fits t then Except.ok t else .error fault) =
      if ∀ t ∈ ts, fits t then .ok ts else .error fault := by
  induction ts with
  | nil => rfl
  | cons t ts ih =>
    rw [List.mapM_cons, ih]
    by_cases first : fits t
    · by_cases others : ∀ t ∈ ts, fits t
      · rw [if_pos first, if_pos others, if_pos (List.forall_mem_cons.mpr ⟨first, others⟩)]
        rfl
      · rw [if_pos first, if_neg others, if_neg fun all => others (List.forall_mem_cons.mp all).2]
        rfl
    · rw [if_neg first, if_neg fun all => first (List.forall_mem_cons.mp all).1]
      rfl

end ParseTree

section

variable {json : Library} (documented : json.Documented)
include documented

theorem Json.Library.Documented.array_ok {α : Type} {depth : Nat} {element : Nat → Reader α}
    {write : α → List Char} {items : List α}
    (each : ∀ a ∈ items, Reads (element depth) (write a) (.ok a)) :
    Reads (json.readArray (depth + 1) element) (json.writeArray (items.map write)) (.ok items) := by
  have all : items.mapM Except.ok = (.ok (items.map id) : Except Fault (List α)) :=
    List.mapM_pure (f := id)
  rw [List.map_id] at all
  rw [← all]
  exact documented.array each

namespace Grammar

/-! ## Symbols -/

theorem Symbol.reads_toJson (s : Symbol) (depth : Nat) :
    Reads (Symbol.readJson json (depth + 1)) (s.toJson json) (.ok s) := by
  cases s with
  | terminal name => exact documented.variant rfl ((documented.text name).map terminal)
  | nonterminal name => exact documented.variant rfl ((documented.text name).map nonterminal)

/-! ## Options -/

theorem Options.reads_toJson (o : Options) (small : ∀ n ∈ o.maxResults, n ≤ maxSize)
    (depth : Nat) : Reads (Options.readJson json (depth + 1)) (o.toJson json) (.ok o) := by
  have fills : Fills (Options.fields json) {}
      [("skip_layout", json.writeBool o.skipLayout), ("max_results", json.writeSize? o.maxResults)]
      (.ok ⟨some o.skipLayout, some o.maxResults⟩) :=
    .field rfl rfl ((documented.bool o.skipLayout).field _)
      (.field rfl rfl ((documented.size? small).field _) (.done _))
  exact documented.record fills rfl

/-! ## Grammars -/

theorem reads_alternativesToJson (alternatives : List Alternative) (depth : Nat) :
    Reads (readAlternatives json (depth + 3)) (alternativesToJson json alternatives)
      (.ok alternatives) :=
  documented.array_ok fun _ _ => documented.array_ok fun s _ => s.reads_toJson documented depth

theorem reads_jsonOfEntries {g : Grammar} {entries : List Rule}
    (perm : entries.Perm g.alternativesOf.toList) (depth : Nat) :
    Reads (Grammar.readJson json (depth + 5)) (jsonOfEntries json entries g.order) (.ok g) := by
  have rules : Reads (json.readMap (depth + 4) (readAlternatives json))
      (json.writeMap (entries.map fun rule => (rule.1, alternativesToJson json rule.2)))
      (.ok g.alternativesOf) := by
    rw [← ofList_of_perm perm]
    exact documented.map (nodup_names_of_perm perm) fun rule _ =>
      reads_alternativesToJson documented rule.2 depth
  have order : Reads (json.readArray (depth + 4) fun _ => json.readText)
      (json.writeArray (g.order.map json.writeText)) (.ok g.order) :=
    documented.array_ok fun name _ => documented.text name
  have fills : Fills (Grammar.fields json (depth + 4)) {}
      [("rules", json.writeMap (entries.map fun rule => (rule.1, alternativesToJson json rule.2))),
        ("order", json.writeArray (g.order.map json.writeText))]
      (.ok ⟨some g.alternativesOf, some g.order⟩) :=
    .field rfl rfl (rules.field _) (.field rfl rfl (order.field _) (.done _))
  exact documented.record fills rfl

end Grammar

/-! ## Trees -/

namespace ParseTree

theorem reads_kind (label : Grammar.Symbol) (depth : Nat) :
    ∃ make, make label.name = label ∧
      Reads (readKind json depth) (json.writeBareVariant label.kind) (.ok make) := by
  cases label with
  | terminal name => exact ⟨.terminal, rfl, documented.bareVariant rfl⟩
  | nonterminal name => exact ⟨.nonterminal, rfl, documented.bareVariant rfl⟩

section

variable {label : Grammar.Symbol} {children : List ParseTree} {depth : Nat}
  {reader : Reader (List ParseTree)}

/-- The fields of a node before its children are read without fault. -/
theorem fills_node {make : String → Grammar.Symbol} {members : List (String × List Char)}
    {outcome : Except Fault Draft}
    (kind : Reads (readKind json depth) (json.writeBareVariant label.kind) (.ok make))
    (more : Fills (fields json reader depth) ⟨some label.name, some make, none⟩ members outcome) :
    Fills (fields json reader depth) {}
      (("symbol", json.writeText label.name) :: ("kind", json.writeBareVariant label.kind) ::
        members) outcome :=
  .field rfl rfl ((documented.text label.name).field _) (.field rfl rfl (kind.field _) more)

/-- A node is read when its children are, and has their fault otherwise. -/
theorem reads_node {outcome : Except Fault (List ParseTree)}
    (reads : Reads reader (json.writeArray (forestToJson json children)) outcome) :
    Reads (readNode json (depth + 1) reader) ((node label children).toJson json)
      (outcome.map (node label)) := by
  obtain ⟨make, made, kind⟩ := reads_kind documented label depth
  cases outcome with
  | error fault =>
    exact documented.record_fault (fills_node documented kind (.fault rfl rfl (reads.field_fault _)))
  | ok ts =>
    have complete : Draft.complete? ⟨some label.name, some make, some ts⟩ =
        some (node label ts) := by
      simp only [Draft.complete?, made]
    have children : Fills (fields json reader depth) ⟨some label.name, some make, none⟩
        [("children", json.writeArray (forestToJson json children))]
        (.ok ⟨some label.name, some make, some ts⟩) :=
      .field rfl rfl (reads.field _) (.done _)
    exact documented.record (fills_node documented kind children) complete

/-- With no level of depth left, no node is read. -/
theorem reads_node_zero :
    Reads (readNode json 0 reader) ((node label children).toJson json) (.error .malformed) :=
  documented.record_zero _

end

/-- A node opens a container for itself and one for its children, so a tree is read as long as twice
its height is allowed for, and is refused otherwise. -/
theorem reads_toJson (t : ParseTree) (depth : Nat) :
    Reads (readJson json depth) (t.toJson json)
      (if 2 * t.height ≤ depth then .ok t else .error .malformed) := by
  induction depth using readJson.induct generalizing t with
  | case1 =>
    obtain ⟨label, children⟩ := t
    rw [height, if_neg (by omega)]
    exact reads_node_zero documented
  | case2 =>
    obtain ⟨label, children⟩ := t
    rw [height, if_neg (by omega)]
    exact reads_node documented (documented.array_zero _)
  | case3 depth ih =>
    obtain ⟨label, children⟩ := t
    -- The node and its children take two levels, and each child has `depth` levels for itself.
    have array : Reads (json.readArray (depth + 1) fun _ => readJson json depth)
        (json.writeArray (forestToJson json children))
        (if ∀ t ∈ children, 2 * t.height ≤ depth then .ok children else .error .malformed) := by
      rw [forestToJson_eq_map, ← mapM_ite]
      exact documented.array fun t _ => ih t
    have node : Reads (readNode json (depth + 2) _) ((node label children).toJson json) _ :=
      reads_node documented array
    have fits : (∀ t ∈ children, 2 * t.height ≤ depth) ↔ heightAll children ≤ depth / 2 := by
      rw [heightAll_le_iff]
      exact forall₂_congr fun t _ => by omega
    by_cases small : ∀ t ∈ children, 2 * t.height ≤ depth
    · have lower := fits.mp small
      rw [if_pos small] at node
      rw [height, if_pos (by omega)]
      exact node
    · have higher := mt fits.mpr small
      rw [if_neg small] at node
      rw [height, if_neg (by omega)]
      exact node

end ParseTree

/-! ## Whole texts -/

theorem Grammar.Symbol.ofJson_toJson (s : Grammar.Symbol) :
    Grammar.Symbol.ofJson json (s.toJson json) = .ok s :=
  documented.whole (s.reads_toJson documented 126)

theorem Grammar.Options.ofJson_toJson (o : Grammar.Options)
    (small : ∀ n ∈ o.maxResults, n ≤ maxSize) :
    Grammar.Options.ofJson json (o.toJson json) = .ok o :=
  documented.whole (o.reads_toJson documented small 126)

theorem Grammar.ofJson_jsonOfEntries {g : Grammar} {entries : List Grammar.Rule}
    (perm : entries.Perm g.alternativesOf.toList) :
    Grammar.ofJson json (jsonOfEntries json entries g.order) = .ok g :=
  documented.whole (reads_jsonOfEntries documented perm 122)

theorem ParseTree.ofJson_toJson (t : ParseTree) :
    ParseTree.ofJson json (t.toJson json) =
      if 2 * t.height ≤ maxDepth then .ok t else .error .malformed :=
  documented.whole (t.reads_toJson documented maxDepth)

/-- With a documented library every value is found in the text that is written for it: a symbol;
options whose bound, if any, is a size; a grammar, in whatever order the entries of its map are
written, and whether or not its order names its rules; and a tree, whatever nodes have children, up
to the height at which it needs more open containers than are allowed. Higher trees are refused. -/
theorem ofJson_written :
    (∀ s : Grammar.Symbol, Grammar.Symbol.ofJson json (s.toJson json) = .ok s) ∧
    (∀ o : Grammar.Options, (∀ n ∈ o.maxResults, n ≤ maxSize) →
      Grammar.Options.ofJson json (o.toJson json) = .ok o) ∧
    (∀ g : Grammar, Grammar.ofJson json (g.toJson json) = .ok g ∧
      ∀ entries : List Grammar.Rule, entries.Perm g.alternativesOf.toList →
        Grammar.ofJson json (Grammar.jsonOfEntries json entries g.order) = .ok g) ∧
    (∀ t : ParseTree, t.height ≤ 63 → ParseTree.ofJson json (t.toJson json) = .ok t) ∧
    ∀ t : ParseTree, 63 < t.height →
      ParseTree.ofJson json (t.toJson json) = .error .malformed := by
  refine ⟨?symbols, ?options, fun g => ⟨?written, ?permuted⟩, ?low, ?high⟩
  case symbols => exact fun s => s.ofJson_toJson documented
  case options => exact fun o small => o.ofJson_toJson documented small
  case written => exact Grammar.ofJson_jsonOfEntries documented (.refl _)
  case permuted => exact fun entries perm => Grammar.ofJson_jsonOfEntries documented perm
  case low =>
    intro t low
    have fits : 2 * t.height ≤ maxDepth := by
      unfold maxDepth
      omega
    rw [t.ofJson_toJson documented, if_pos fits]
  case high =>
    intro t high
    have exceeds : ¬ 2 * t.height ≤ maxDepth := by
      unfold maxDepth
      omega
    rw [t.ofJson_toJson documented, if_neg exceeds]

end

/-- A name with a quote, a backslash, a control character and a character of two bytes. -/
def oddName : String := "\"\\\x01é"

/-- A grammar that declares one name twice and another one without a rule, and has a rule that it
does not declare. -/
def oddGrammar : Grammar :=
  ⟨(∅ : Std.ExtTreeMap String (List Grammar.Alternative)).insert oddName [[.nonterminal ""], []]
    |>.insert "a" [[.terminal oddName]], ["a", "b", "a"]⟩

/-- Terminals, each of which has the one before as its child. -/
def tower : Nat → ParseTree
  | 0 => .terminal oddName
  | n + 1 => .node (.terminal "") [tower n]

theorem height_tower (n : Nat) : (tower n).height = n + 1 := by
  induction n with
  | zero => rfl
  | succ n ih => simp [tower, ParseTree.height, ParseTree.heightAll, ih]

/-- The entries of the grammar's map are taken the other way round; of the towers, one is as high as
can be read and one is higher by a node. -/
theorem ofJson_written_odd :
    Grammar.Symbol.ofJson standard "\x7b\"Terminal\":\"\\\"\\\\\\u0001é\"\x7d".toList =
      .ok (.terminal oddName) ∧
    Grammar.Options.ofJson standard
        "\x7b\"skip_layout\":false,\"max_results\":18446744073709551615\x7d".toList =
      .ok ⟨false, some maxSize⟩ ∧
    Grammar.ofJson standard
        ("\x7b\"rules\":\x7b\"a\":[[\x7b\"Terminal\":\"\\\"\\\\\\u0001é\"\x7d]]," ++
          "\"\\\"\\\\\\u0001é\":[[\x7b\"Nonterminal\":\"\"\x7d],[]]\x7d," ++
          "\"order\":[\"a\",\"b\",\"a\"]\x7d").toList =
      .ok oddGrammar ∧
    ParseTree.ofJson standard ((tower 62).toJson standard) = .ok (tower 62) ∧
    ParseTree.ofJson standard ((tower 63).toJson standard) = .error .malformed := by
  obtain ⟨symbols, options, grammars, low_trees, high_trees⟩ := ofJson_written standard_documented
  refine ⟨?symbol, ?bound, ?grammar, ?low, ?high⟩
  case symbol =>
    refine (congrArg (Grammar.Symbol.ofJson standard) ?_).trans (symbols (.terminal oddName))
    decide
  case bound =>
    have small : ∀ n ∈ some maxSize, n ≤ maxSize := by simp
    refine (congrArg (Grammar.Options.ofJson standard) ?_).trans
      (options ⟨false, some maxSize⟩ small)
    decide
  case grammar =>
    have perm : [("a", [[.terminal oddName]]), (oddName, [[.nonterminal ""], []])].Perm
        oddGrammar.alternativesOf.toList := by decide
    refine (congrArg (Grammar.ofJson standard) ?_).trans ((grammars oddGrammar).2 _ perm)
    decide
  case low => exact low_trees _ (by simp [height_tower])
  case high => exact high_trees _ (by simp [height_tower])

end AllParses
