import Thcdb.Corrections.SnapshotDiff
import Thcdb.Json.Printer

namespace Thcdb.Corrections
open Json

/-- A key that can be told apart in a path. -/
def PlainKey (key : String) : Prop := key ≠ "" ∧ '.' ∉ key.toList

/-- The keys of the objects that are reached through objects are plain. -/
inductive PlainKeys : Value → Prop
  | obj {m : Fields} : (∀ p ∈ m, PlainKey p.1) → (∀ p ∈ m, PlainKeys p.2) → PlainKeys (.obj m)
  | leaf {v : Value} : (∀ m, v ≠ .obj m) → PlainKeys v

/-- A JSON value whose locations have paths of their own. -/
structure Tree where
  value : Value
  document : Document value
  plain : PlainKeys value

def pathOf (keys : List String) : String := ".".intercalate keys

def child (key : String) : Option Value → Option Value
  | some (.obj m) => Fields.get key m
  | _ => none

def valueAt : List String → Option Value → Option Value
  | [], v => v
  | k :: keys, v => valueAt keys (child k v)

/-- The values at a location differ and are not two objects. -/
inductive Differs : List String → Option Value → Option Value → Prop
  | here {b a : Option Value} : b ≠ a → (∀ m m', ¬ (b = some (.obj m) ∧ a = some (.obj m'))) →
      Differs [] b a
  | inside {k : String} {keys : List String} {m m' : Fields} :
      Differs keys (Fields.get k m) (Fields.get k m') →
      Differs (k :: keys) (some (.obj m)) (some (.obj m'))

section Paths
variable {key : String} {keys keys' more : List String}

theorem pathOf_ne_empty (h : ∀ k ∈ keys, PlainKey k) (hne : keys ≠ []) : pathOf keys ≠ "" := by
  match keys with
  | [] => exact absurd rfl hne
  | [k] => simpa [pathOf] using (h k List.mem_cons_self).1
  | k :: l :: keys =>
    intro hempty
    have hlist := congrArg String.toList hempty
    simp [pathOf] at hlist

theorem joinPath_pathOf (h : ∀ k ∈ keys, PlainKey k) :
    joinPath (pathOf keys) key = pathOf (keys ++ [key]) := by
  unfold joinPath
  by_cases hne : keys = []
  · simp [hne, pathOf]
  · have hpath : (pathOf keys).isEmpty = false := by
      simpa using pathOf_ne_empty h hne
    rw [hpath, pathOf, pathOf, String.intercalate_append_of_ne_nil hne (List.cons_ne_nil _ _)]
    simp [String.append_assoc, toString]

theorem foldl_joinPath (h : ∀ k ∈ keys, PlainKey k) (hmore : ∀ k ∈ more, PlainKey k) :
    more.foldl joinPath (pathOf keys) = pathOf (keys ++ more) := by
  induction more generalizing keys with
  | nil => simp
  | cons k more ih =>
    rw [List.foldl_cons, joinPath_pathOf h, ih, List.append_assoc, List.singleton_append]
    · intro l hl
      rcases List.mem_append.mp hl with hl | hl
      · exact h l hl
      · exact hmore l (List.mem_cons.mpr (Or.inl (List.mem_singleton.mp hl)))
    · exact fun l hl => hmore l (List.mem_cons_of_mem _ hl)

/-- The keys are read off the path. -/
theorem pathOf_inj (h : ∀ k ∈ keys, PlainKey k) (h' : ∀ k ∈ keys', PlainKey k)
    (hne : keys ≠ []) (hne' : keys' ≠ []) (heq : pathOf keys = pathOf keys') : keys = keys' := by
  have hsplit : ∀ {ks : List String}, (∀ k ∈ ks, PlainKey k) → ks ≠ [] →
      (pathOf ks).toList.splitOn '.' = ks.map String.toList := by
    intro ks hks hks'
    rw [pathOf, String.toList_intercalate]
    refine List.splitOn_intercalate '.' ?_ (by simpa using hks')
    intro l hl
    obtain ⟨k, hk, rfl⟩ := List.mem_map.mp hl
    exact (hks k hk).2
  have hmap := (hsplit h hne).symm.trans ((congrArg (fun p => p.toList.splitOn '.') heq).trans
    (hsplit h' hne'))
  exact List.map_injective_iff.mpr (fun _ _ => String.toList_injective) hmap

theorem formatPath_pathOf (h : ∀ k ∈ keys, PlainKey k) (hne : keys ≠ []) :
    formatPath (pathOf keys) = pathOf keys := by
  have hpath : (pathOf keys).isEmpty = false := by
    simpa using pathOf_ne_empty h hne
  simp [formatPath, hpath]

end Paths

section Locations
variable {b a : Option Value} {keys : List String} {m m' : Fields} {k : String}

theorem Differs.valueAt_ne (h : Differs keys b a) : valueAt keys b ≠ valueAt keys a := by
  induction h with
  | here hne _ => exact hne
  | inside _ ih => exact ih

/-- One of the values differs from what is in its place. -/
theorem Differs.given (h : Differs keys b a) : b ≠ none ∨ a ≠ none := by
  cases h with
  | here hne _ =>
    by_contra hnone
    rw [not_or, not_not, not_not] at hnone
    exact hne (by rw [hnone.1, hnone.2])
  | inside _ => exact Or.inl (Option.some_ne_none _)

theorem Differs.mem_keys (h : Differs keys (Fields.get k m) (Fields.get k m')) :
    k ∈ m.keys ∨ k ∈ m'.keys := by
  by_contra hk
  rw [not_or] at hk
  rcases h.given with h | h
  · exact h (Fields.get_eq_none hk.1)
  · exact h (Fields.get_eq_none hk.2)

theorem valueAt_none : valueAt keys none = none := by
  induction keys with
  | nil => rfl
  | cons k keys ih => exact ih

theorem obj_of_valueAt {v : Value} (h : valueAt (k :: keys) b = some v) :
    ∃ m, b = some (.obj m) := by
  rw [valueAt] at h
  unfold child at h
  split at h
  · exact ⟨_, rfl⟩
  · rw [valueAt_none] at h
    cases h

/-- Where there are not two objects, the location is the one at hand. -/
theorem differs_leaf_iff (hleaf : ∀ m m', ¬ (b = some (.obj m) ∧ a = some (.obj m'))) :
    Differs keys b a ↔ keys = [] ∧ b ≠ a := by
  constructor
  · intro h
    cases h with
    | here hne _ => exact ⟨rfl, hne⟩
    | inside _ => exact absurd ⟨rfl, rfl⟩ (hleaf _ _)
  · rintro ⟨rfl, hne⟩
    exact .here hne hleaf

theorem PlainKeys.get {v : Value} (h : PlainKeys (.obj m)) (hget : v ∈ Fields.get k m) :
    PlainKeys v := by
  cases h with
  | obj _ hvalues => exact hvalues _ (Fields.mem_of_get hget)
  | leaf hleaf => exact absurd rfl (hleaf m)

theorem PlainKeys.of_mem_keys (h : PlainKeys (.obj m)) (hk : k ∈ m.keys) : PlainKey k := by
  cases h with
  | obj hkeys _ =>
    obtain ⟨p, hp, rfl⟩ := List.mem_map.mp hk
    exact hkeys p hp
  | leaf hleaf => exact absurd rfl (hleaf m)

theorem Differs.plain (h : Differs keys b a) (hb : ∀ v ∈ b, PlainKeys v)
    (ha : ∀ v ∈ a, PlainKeys v) : ∀ k ∈ keys, PlainKey k := by
  induction h with
  | here _ _ => simp
  | @inside k keys m m' h ih =>
    have hkey : PlainKey k := h.mem_keys.elim (hb _ rfl).of_mem_keys (ha _ rfl).of_mem_keys
    exact List.forall_mem_cons.mpr
      ⟨hkey, ih (fun v hv => (hb _ rfl).get hv) fun v hv => (ha _ rfl).get hv⟩

theorem document_valueAt {v : Value} (h : ∀ w ∈ b, Document w) (hv : v ∈ valueAt keys b) :
    Document v := by
  induction keys generalizing b with
  | nil => exact h v hv
  | cons k keys ih =>
    obtain ⟨m, rfl⟩ := obj_of_valueAt hv
    refine ih (fun w hw => ?_) hv
    cases h _ rfl with
    | obj _ hvalues => exact hvalues _ (Fields.mem_of_get hw)

end Locations

section Entries
variable {pretty : Value → String} {path : String} {b a : Option Value} {keys : List String}
  {e : CorrectionDiffEntry}

/-- The entries stand for the locations at which the values differ. -/
theorem mem_diffWalk : e ∈ diffWalk pretty path b a ↔
    ∃ keys, Differs keys b a ∧
      e = diffEntry pretty (keys.foldl joinPath path) (valueAt keys b) (valueAt keys a) := by
  fun_induction diffWalk pretty path b a with
  | case1 path m m' ih =>
    constructor
    · intro he
      obtain ⟨k, hk, he⟩ := List.mem_flatMap.mp he
      obtain ⟨keys, hdiffers, rfl⟩ := (ih k).mp he
      exact ⟨k :: keys, .inside hdiffers, rfl⟩
    · rintro ⟨keys, hdiffers, rfl⟩
      cases hdiffers with
      | here _ hleaf => exact absurd ⟨rfl, rfl⟩ (hleaf m m')
      | @inside k keys _ _ hdiffers =>
        have hk : k ∈ diffKeys m m' := mem_diffKeys.mpr hdiffers.mem_keys
        exact List.mem_flatMap.mpr ⟨k, hk, (ih k).mpr ⟨keys, hdiffers, rfl⟩⟩
  | case2 path v w hleaf hne =>
    have h : ∀ m m', ¬ (some v = some (Value.obj m) ∧ some w = some (Value.obj m')) := by
      simpa using hleaf
    simp [differs_leaf_iff h, hne, valueAt]
  | case3 path v w hleaf heq =>
    have h : ∀ m m', ¬ (some v = some (Value.obj m) ∧ some w = some (Value.obj m')) := by
      simpa using hleaf
    obtain rfl := not_not.mp heq
    simp [differs_leaf_iff h]
  | case4 path v => simp [differs_leaf_iff, valueAt]
  | case5 path v => simp [differs_leaf_iff, valueAt]
  | case6 => simp [differs_leaf_iff]

theorem diffKeys_comm (m m' : Fields) : diffKeys m m' = diffKeys m' m := by
  have hperm : (diffKeys m m').Perm (diffKeys m' m) :=
    (List.mergeSort_perm _ _).trans
      ((List.perm_append_comm.dedup).trans (List.mergeSort_perm _ _).symm)
  exact hperm.eq_of_pairwise' (List.pairwise_mergeSort' _ _) (List.pairwise_mergeSort' _ _)

def CorrectionDiffEntry.exchange (e : CorrectionDiffEntry) : CorrectionDiffEntry :=
  ⟨e.path, e.after, e.before⟩

theorem diffWalk_swap :
    diffWalk pretty path a b = (diffWalk pretty path b a).map CorrectionDiffEntry.exchange := by
  fun_induction diffWalk pretty path b a with
  | case1 path m m' ih =>
    rw [diffWalk, List.map_flatMap, diffKeys_comm]
    exact List.flatMap_congr fun k _ => ih k
  | case2 path v w hleaf hne =>
    rw [diffWalk, if_pos hne.symm]
    · rfl
    · exact fun m m' hw hv => hleaf m' m hv hw
  | case3 path v w hleaf heq =>
    rw [diffWalk, if_neg fun h => heq h.symm]
    · rfl
    · exact fun m m' hw hv => hleaf m' m hv hw
  | case4 path v => rw [diffWalk]; rfl
  | case5 path v => rw [diffWalk]; rfl
  | case6 => rw [diffWalk]; rfl

theorem path_of_mem_diffWalk {above : List String} (habove : ∀ k ∈ above, PlainKey k)
    (hb : ∀ v ∈ b, PlainKeys v) (ha : ∀ v ∈ a, PlainKeys v)
    (he : e ∈ diffWalk pretty (pathOf above) b a) :
    ∃ keys, (∀ k ∈ keys, PlainKey k) ∧ e.path = formatPath (pathOf (above ++ keys)) := by
  obtain ⟨keys, hdiffers, rfl⟩ := mem_diffWalk.mp he
  have hkeys := hdiffers.plain hb ha
  exact ⟨keys, hkeys, by rw [diffEntry, foldl_joinPath habove hkeys]⟩

/-- The paths of entries below a location are distinct. -/
theorem nodup_diffWalk {above : List String} (habove : ∀ k ∈ above, PlainKey k)
    (hb : ∀ v ∈ b, PlainKeys v) (ha : ∀ v ∈ a, PlainKeys v) :
    ((diffWalk pretty (pathOf above) b a).map CorrectionDiffEntry.path).Nodup := by
  generalize hpath : pathOf above = path
  fun_induction diffWalk pretty path b a generalizing above with
  | case1 path m m' ih =>
    have hkey : ∀ k ∈ diffKeys m m', PlainKey k := fun k hk =>
      (mem_diffKeys.mp hk).elim (hb _ rfl).of_mem_keys (ha _ rfl).of_mem_keys
    have hplain : ∀ k ∈ diffKeys m m', ∀ l ∈ above ++ [k], PlainKey l := by
      intro k hk l hl
      rcases List.mem_append.mp hl with hl | hl
      · exact habove l hl
      · exact List.mem_singleton.mp hl ▸ hkey k hk
    have hget : ∀ k, (∀ v ∈ Fields.get k m, PlainKeys v) ∧ ∀ v ∈ Fields.get k m', PlainKeys v :=
      fun k => ⟨fun v hv => (hb _ rfl).get hv, fun v hv => (ha _ rfl).get hv⟩
    rw [List.map_flatMap, List.nodup_flatMap]
    constructor
    · intro k hk
      exact ih k (hplain k hk) (hget k).1 (hget k).2 (by rw [← hpath, joinPath_pathOf habove])
    · -- The paths below two keys differ in these keys.
      refine (List.nodup_mergeSort.mpr (List.nodup_dedup _)).pairwise_of_forall_ne ?_
      intro k hk l hl hkl p hp hp'
      obtain ⟨e, he, rfl⟩ := List.mem_map.mp hp
      obtain ⟨e', he', heq⟩ := List.mem_map.mp hp'
      rw [← hpath, joinPath_pathOf habove] at he he'
      obtain ⟨keys, hkeys, hpath⟩ := path_of_mem_diffWalk (hplain k hk) (hget k).1 (hget k).2 he
      obtain ⟨keys', hkeys', hpath'⟩ :=
        path_of_mem_diffWalk (hplain l hl) (hget l).1 (hget l).2 he'
      have hall := List.forall_mem_append.mpr ⟨hplain k hk, hkeys⟩
      have hall' := List.forall_mem_append.mpr ⟨hplain l hl, hkeys'⟩
      rw [hpath, hpath', formatPath_pathOf hall (by simp), formatPath_pathOf hall' (by simp)] at heq
      have hlists := pathOf_inj hall' hall (by simp) (by simp) heq
      simp only [List.append_assoc, List.append_cancel_left_eq, List.singleton_append,
        List.cons.injEq] at hlists
      exact hkl hlists.1.symm
  | case2 path v w hleaf hne => simp
  | case3 path v w hleaf heq => simp
  | case4 path v => simp
  | case5 path v => simp
  | case6 => simp

end Entries

section Texts
-- how a date is written
variable (dateText : ℤ → String)

/-- A string and a value of another kind whose JSON text is that string. -/
def SpelledAlike (v w : Value) : Prop :=
  ∃ s, v = .str s ∧ (∀ t, w ≠ .str t) ∧ toStringPretty dateText w = s

/-- The entries are exactly the differences of two snapshots, read from either side. -/
structure ExactDiff (before after : Tree) (entries swapped : List CorrectionDiffEntry) : Prop where
  empty_iff : entries = [] ↔ before.value = after.value
  distinct : (entries.map CorrectionDiffEntry.path).Nodup
  located : ∀ e ∈ entries, ∃ keys, e.path = formatPath (pathOf keys) ∧
    valueAt keys (some before.value) ≠ valueAt keys (some after.value) ∧
    e.before = (valueAt keys (some before.value)).map (valueToString (toStringPretty dateText)) ∧
    e.after = (valueAt keys (some after.value)).map (valueToString (toStringPretty dateText)) ∧
    (e.before = e.after ↔ ∃ v ∈ valueAt keys (some before.value),
      ∃ w ∈ valueAt keys (some after.value), SpelledAlike dateText v w ∨ SpelledAlike dateText w v)
  exchanged : swapped = entries.map CorrectionDiffEntry.exchange

variable {dateText} {v w : Value}

theorem valueToString_of_not_str {pretty : Value → String} (h : ∀ t, v ≠ .str t) :
    valueToString pretty v = pretty v := by
  cases v with
  | str s => exact absurd rfl (h s)
  | _ => rfl

/-- The texts of different values agree only where a string is spelled as another value. -/
theorem valueToString_eq_iff (hv : Document v) (hw : Document w) (hne : v ≠ w) :
    valueToString (toStringPretty dateText) v = valueToString (toStringPretty dateText) w ↔
      SpelledAlike dateText v w ∨ SpelledAlike dateText w v := by
  by_cases hvs : ∃ s, v = .str s
  · obtain ⟨s, rfl⟩ := hvs
    by_cases hws : ∃ t, w = .str t
    · obtain ⟨t, rfl⟩ := hws
      simpa [SpelledAlike, valueToString] using hne
    · rw [not_exists] at hws
      simp [SpelledAlike, hws, valueToString]
  · rw [not_exists] at hvs
    by_cases hws : ∃ t, w = .str t
    · obtain ⟨t, rfl⟩ := hws
      simp [SpelledAlike, hvs, valueToString]
      exact eq_comm
    · rw [not_exists] at hws
      rw [valueToString_of_not_str hvs, valueToString_of_not_str hws, toStringPretty_inj hv hw]
      simp [SpelledAlike, hvs, hws, hne]

/-- Locations that only one of the trees has are never printed alike. -/
theorem map_valueToString_eq_iff {b a : Option Value} (hb : ∀ v ∈ b, Document v)
    (ha : ∀ w ∈ a, Document w) (hne : b ≠ a) :
    b.map (valueToString (toStringPretty dateText)) =
        a.map (valueToString (toStringPretty dateText)) ↔
      ∃ v ∈ b, ∃ w ∈ a, SpelledAlike dateText v w ∨ SpelledAlike dateText w v := by
  cases b with
  | none =>
    cases a with
    | none => exact absurd rfl hne
    | some w => simp
  | some v =>
    cases a with
    | none => simp
    | some w =>
      have hvw : v ≠ w := fun h => hne (by rw [h])
      simpa using valueToString_eq_iff (hb v rfl) (ha w rfl) hvw

/-- The difference of two snapshots is an exact one. Entries have two different texts, but for a
string against a value that is printed as that string. -/
theorem diffSnapshots_exact (dateText : ℤ → String) (before after : Tree) :
    ExactDiff dateText before after
      (diffSnapshots (toStringPretty dateText) before.value after.value)
      (diffSnapshots (toStringPretty dateText) after.value before.value) := by
  have hb : ∀ v ∈ some before.value, Document v := by simpa using before.document
  have ha : ∀ v ∈ some after.value, Document v := by simpa using after.document
  have hbplain : ∀ v ∈ some before.value, PlainKeys v := by simpa using before.plain
  have haplain : ∀ v ∈ some after.value, PlainKeys v := by simpa using after.plain
  have hroot : ∀ k ∈ ([] : List String), PlainKey k := by simp
  refine {
    empty_iff := diffSnapshots_eq_nil before.document.canonical after.document.canonical
    distinct := nodup_diffWalk hroot hbplain haplain
    located := ?_
    exchanged := diffWalk_swap }
  intro e he
  obtain ⟨keys, hdiffers, rfl⟩ := mem_diffWalk.mp he
  refine ⟨keys, ?_, hdiffers.valueAt_ne, rfl, rfl, ?_⟩
  · have hpath := foldl_joinPath hroot (hdiffers.plain hbplain haplain)
    exact congrArg formatPath hpath
  · exact map_valueToString_eq_iff (fun v hv => document_valueAt hb hv)
      (fun w hw => document_valueAt ha hw) hdiffers.valueAt_ne

def Tree.obj (m : List (String × Tree)) (hkeys : (m.map Prod.fst).Pairwise (· < ·))
    (hplain : ∀ p ∈ m, PlainKey p.1) : Tree where
  value := .obj (m.map fun p => (p.1, p.2.value))
  document := by
    refine .obj (by simpa [Fields.Ascending, List.pairwise_map] using hkeys) ?_
    exact List.forall_mem_map.mpr fun p _ => p.2.document
  plain := .obj (List.forall_mem_map.mpr hplain) (List.forall_mem_map.mpr fun p _ => p.2.plain)

/-- An event that has a name and the day of its start. -/
def daySnapshot : Tree :=
  .obj [("name", ⟨.str "Reitaisai", .str _, .leaf (by simp)⟩),
    ("start_date", .obj [("precision", ⟨.str "Day", .str _, .leaf (by simp)⟩),
      ("value", ⟨.num 1, .num _, .leaf (by simp)⟩)]
      (List.pairwise_pair.mpr (String.lt_iff_toList_lt.mpr (by decide))) (by simp [PlainKey]))]
    (List.pairwise_pair.mpr (String.lt_iff_toList_lt.mpr (by decide))) (by simp [PlainKey])

/-- The same without the name, and with the month for the day. -/
def monthSnapshot : Tree :=
  .obj [("start_date", .obj [("precision", ⟨.str "Month", .str _, .leaf (by simp)⟩)] (by simp)
    (by simp [PlainKey]))] (by simp) (by simp [PlainKey])

theorem diffSnapshots_exact_dated :
    ExactDiff (fun _ => "") daySnapshot monthSnapshot
      (diffSnapshots (toStringPretty fun _ => "") daySnapshot.value monthSnapshot.value)
      (diffSnapshots (toStringPretty fun _ => "") monthSnapshot.value daySnapshot.value) ∧
    ∀ e ∈ [⟨"name", some "Reitaisai", none⟩, ⟨"start_date.precision", some "Day", some "Month"⟩,
        ⟨"start_date.value", some "1", none⟩],
      e ∈ diffSnapshots (toStringPretty fun _ => "") daySnapshot.value monthSnapshot.value := by
  refine ⟨diffSnapshots_exact _ _ _, ?_⟩
  simp only [List.forall_mem_cons]
  refine ⟨?_, ?_, ?_, by simp⟩
  · exact mem_diffWalk.mpr ⟨["name"], .inside (.here (by decide) (by simp [Fields.get])), by decide⟩
  · exact mem_diffWalk.mpr ⟨["start_date", "precision"],
      .inside (.inside (.here (by decide) (by simp [Fields.get]))), by decide⟩
  · exact mem_diffWalk.mpr ⟨["start_date", "value"],
      .inside (.inside (.here (by decide) (by simp [Fields.get]))), by decide⟩

/-- The number one against a string of the digit one: both are printed as 1. -/
theorem diffSnapshots_prints_alike :
    ¬ ∀ (dateText : ℤ → String) (before after : Tree),
      ∀ e ∈ diffSnapshots (toStringPretty dateText) before.value after.value,
        e.before ≠ e.after := by
  intro h
  let before : Tree := ⟨.num 1, .num 1, .leaf (by simp)⟩
  let after : Tree := ⟨.str "1", .str "1", .leaf (by simp)⟩
  refine h (fun _ => "") before after
    (diffEntry (toStringPretty fun _ => "") "" (some before.value) (some after.value)) ?_ ?_
  · exact mem_diffWalk.mpr ⟨[], .here (by simp [before, after]) (by simp [before]), rfl⟩
  · decide

end Texts

end Thcdb.Corrections
