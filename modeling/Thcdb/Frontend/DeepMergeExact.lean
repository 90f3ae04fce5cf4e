import Thcdb.Frontend.DeepMergeClashes

namespace Thcdb.Frontend.DeepMerge

open Objects Heap
open Fallible (bind_eq_ok foldlM_cons_eq_ok)

variable {κ : Type}

/-- A target and sources that are plain objects, the sources nested finitely deep. -/
structure Input (h : Heap κ Leaf) (target : ℕ) (sources : List ℕ) : Prop where
  valid : h.Valid
  target_lt : target < h.size
  target_plain : h.isArray target = false
  source_lt : ∀ s ∈ sources, s < h.size
  source_plain : ∀ s ∈ sources, h.isArray s = false
  nested : ∀ s ∈ sources, ∃ n, NestedWithin h n s

/-- Where a source has a plain object and so has the target, the target has that object at no other
place; a target that has every object at one place only is of this kind. -/
def Unshared (h : Heap κ Leaf) (target : ℕ) (sources : List ℕ) : Prop :=
  ∀ s ∈ sources, ∀ p, Plain (h.view (.ref s)) p → Plain (h.view (.ref target)) p →
    h.Sole target p

theorem unshared_of_tree {h : Heap κ Leaf} {target : ℕ} {sources : List ℕ}
    (hroot : ∀ l k, (∃ q, h.walk (.ref target) q = some (.ref l)) →
      h.own l k ≠ some (.ref target))
    (htree : ∀ l l' k k' m, (∃ q, h.walk (.ref target) q = some (.ref l)) →
      (∃ q, h.walk (.ref target) q = some (.ref l')) → h.own l k = some (.ref m) →
      h.own l' k' = some (.ref m) → l = l' ∧ k = k') : Unshared h target sources :=
  fun _ _ p _ _ => sole_of_tree hroot htree p

/-- Nothing in the value is a symbol or a function. -/
def Cloneable (h : Heap κ Leaf) (target : ℕ) : Prop :=
  ∀ p a, h.view (.ref target) p = some (.leaf a) → a.isCloneable = true

def views (h : Heap κ Leaf) (sources : List ℕ) : List (View κ) :=
  sources.map fun s => h.view (.ref s)

/-- `deepMerge` returns the fold of the merge over the sources, and leaves its inputs alone. -/
def Meets [DecidableEq κ] (R : Realm κ) (h : Heap κ Leaf) (target : ℕ) (sources : List ℕ) : Prop :=
  ∃ fuel h' ret, deepMerge R fuel h target sources = .ok (h', ret) ∧
    h'.view (.ref ret) = (views h sources).foldl merge (h.view (.ref target)) ∧
    ∀ l < h.size, h'.obj l = h.obj l

/-- The paths on which some source has a plain object. -/
def touched (h : Heap κ Leaf) (sources : List ℕ) : Set (List κ) :=
  {p | ∃ s ∈ sources, Plain (h.view (.ref s)) p}

variable {R : Realm κ} {h₀ h h' : Heap κ Leaf} {target r s n n' : ℕ} {sources : List ℕ}
  {P : Set (List κ)}

theorem touched_of_isPrefix {p q : List κ} (hp : p ∈ touched h sources) (hq : q <+: p) :
    q ∈ touched h sources := by
  obtain ⟨s, hs, hpl⟩ := hp
  exact ⟨s, hs, hpl.of_isPrefix hq⟩

theorem NestedWithin.mono (hle : n ≤ n') (hn : NestedWithin h n s) : NestedWithin h n' s := by
  induction n' generalizing n s with
  | zero =>
    obtain rfl := Nat.le_zero.mp hle
    exact hn
  | succ n' ih =>
    cases n with
    | zero => exact hn.elim
    | succ n => exact fun k m hm hmp => ih (Nat.le_of_succ_le_succ hle) (hn k m hm hmp)

theorem uncloneableWithin_leaf (h : Heap κ Leaf) (n : ℕ) (a : Leaf) :
    uncloneableWithin h n (.leaf a) = !a.isCloneable := by
  cases n <;> rfl

theorem uncloneableWithin_iff {v : Val} : uncloneableWithin h n v = true ↔
    ∃ p a, p.length ≤ n ∧ h.walk v p = some (.leaf a) ∧ a.isCloneable = false := by
  induction n generalizing v with
  | zero =>
    cases v with
    | leaf a => simp [uncloneableWithin_leaf]
    | ref l => simp [uncloneableWithin]
  | succ n ih =>
    cases v with
    | leaf a =>
      rw [uncloneableWithin_leaf, Bool.not_eq_true']
      constructor
      · exact fun ha => ⟨[], a, Nat.zero_le _, rfl, ha⟩
      · rintro ⟨p, a', -, hw, ha⟩
        cases p with
        | nil => exact Value.leaf.inj (Option.some.inj hw) ▸ ha
        | cons k p => cases hw
    | ref l =>
      rw [uncloneableWithin, List.any_eq_true]
      constructor
      · rintro ⟨k, -, hk⟩
        cases ho : h.own l k with
        | none => simp [ho] at hk
        | some v =>
          simp only [ho] at hk
          obtain ⟨p, a, hp, hw, ha⟩ := ih.mp hk
          refine ⟨k :: p, a, Nat.succ_le_succ hp, ?_, ha⟩
          rw [walk_ref_cons, ho]
          exact hw
      · rintro ⟨p, a, hp, hw, ha⟩
        cases p with
        | nil => cases hw
        | cons k p =>
          obtain ⟨v, ho, hw⟩ := Option.bind_eq_some_iff.mp hw
          refine ⟨k, Obj.mem_keys_of_own ho, ?_⟩
          simp only [ho]
          exact ih.mpr ⟨p, a, Nat.le_of_succ_le_succ hp, hw, ha⟩

/-- The steps are enough: what is not cloned is found without passing an object twice. -/
theorem uncloneable_eq_false_iff (hv : h.Valid) (ht : target < h.size) :
    uncloneable h (.ref target) = false ↔ Cloneable h target := by
  rw [← Bool.not_eq_true, uncloneable, uncloneableWithin_iff]
  constructor
  · intro hno p a hp
    obtain ⟨v, hv', hs⟩ := Option.map_eq_some_iff.mp hp
    obtain rfl := shape_eq_leaf.mp hs
    obtain ⟨q, hq, hw⟩ := exists_short_walk hv ht _ p rfl hv'
    by_contra ha
    exact hno ⟨q, a, hq, hw, Bool.not_eq_true _ ▸ ha⟩
  · rintro hc ⟨p, a, -, hw, ha⟩
    have hleaf := hc p a (by rw [view, hw]; rfl)
    rw [ha] at hleaf
    cases hleaf

/-- The clone of the target, before the first source. -/
theorem good_copy (hi : Input h target sources) (hu : Unshared h target sources) :
    Good h (target + h.size) (touched h sources) h.copy where
  valid := hi.valid.copy
  size_le := by
    rw [size_copy]
    exact Nat.le_add_left ..
  frozen l hl := obj_copy_of_lt hl
  made l hl k m hm := by
    obtain ⟨i, rfl⟩ := Nat.exists_eq_add_of_le' hl
    obtain ⟨j, -, rfl⟩ := own_copy_ref hm
    exact .inl (Nat.le_add_left ..)
  root_le := Nat.le_add_left ..
  root_lt := by
    rw [size_copy]
    exact Nat.add_lt_add_right hi.target_lt _
  sole p hp hpl := by
    obtain ⟨s, hs, hsp⟩ := hp
    have hview : h.copy.view (.ref (target + h.size)) = h.view (.ref target) :=
      funext fun q => view_copy h (.ref target) q
    exact sole_copy (hu s hs p hsp (hview ▸ hpl))

/-- The whole result is a site for each source. -/
theorem site_root (hg : Good h₀ r P h) (hr : h.isArray r = false) (hs : s < h₀.size)
    (hsp : h₀.isArray s = false) (hP : ∀ q, Plain (h₀.view (.ref s)) q → q ∈ P) :
    Site h₀ r P h [] r s where
  good := hg
  path := walk_nil h _
  plain := plain_nil.mpr ((view_nil h _).trans (congrArg some (shape_eq_object.mpr ⟨r, rfl, hr⟩)))
  source_lt := hs
  source_plain := hsp
  touched := hP

structure Sources (h₀ : Heap κ Leaf) (P : Set (List κ)) (n : ℕ) (sources : List ℕ) : Prop where
  lt : ∀ s ∈ sources, s < h₀.size
  plain : ∀ s ∈ sources, h₀.isArray s = false
  touched : ∀ s ∈ sources, ∀ q, Plain (h₀.view (.ref s)) q → q ∈ P
  nested : ∀ s ∈ sources, NestedWithin h₀ n s

theorem Sources.site (hs : Sources h₀ P n (s :: sources)) (hg : Good h₀ r P h)
    (hr : h.isArray r = false) : Site h₀ r P h [] r s :=
  site_root hg hr (hs.lt s List.mem_cons_self) (hs.plain s List.mem_cons_self)
    (hs.touched s List.mem_cons_self)

theorem Sources.tail (hs : Sources h₀ P n (s :: sources)) : Sources h₀ P n sources where
  lt x hx := hs.lt x (List.mem_cons_of_mem s hx)
  plain x hx := hs.plain x (List.mem_cons_of_mem s hx)
  touched x hx := hs.touched x (List.mem_cons_of_mem s hx)
  nested x hx := hs.nested x (List.mem_cons_of_mem s hx)

theorem Sources.of_append {rest : List ℕ} (hs : Sources h₀ P n (sources ++ rest)) :
    Sources h₀ P n sources where
  lt x hx := hs.lt x (List.mem_append_left rest hx)
  plain x hx := hs.plain x (List.mem_append_left rest hx)
  touched x hx := hs.touched x (List.mem_append_left rest hx)
  nested x hx := hs.nested x (List.mem_append_left rest hx)

/-- A bound for the nesting of all sources. -/
theorem exists_sources (hi : Input h target sources) :
    ∃ n, Sources h (touched h sources) n sources := by
  have hbound : ∃ n, ∀ s ∈ sources, NestedWithin h n s := by
    have hn := hi.nested
    clear hi
    induction sources with
    | nil => exact ⟨0, by simp⟩
    | cons s sources ih =>
      obtain ⟨a, ha⟩ := hn s List.mem_cons_self
      obtain ⟨b, hb⟩ := ih fun x hx => hn x (List.mem_cons_of_mem s hx)
      refine ⟨max a b, fun x hx => ?_⟩
      obtain rfl | hx := List.mem_cons.mp hx
      · exact ha.mono (Nat.le_max_left ..)
      · exact (hb x hx).mono (Nat.le_max_right ..)
  obtain ⟨n, hn⟩ := hbound
  exact ⟨n, hi.source_lt, hi.source_plain, fun s hs q hq => ⟨s, hs, hq⟩, hn⟩

variable [DecidableEq κ]

theorem deepMerge_eq (fuel : ℕ) (hne : sources ≠ []) :
    deepMerge R fuel h target sources = (do
      let (h, ret) ← structuredClone h target
      let h ← sources.foldlM (fun h s => mergeTwoMut R fuel h (.ref ret) s) h
      .ok (h, ret)) := by
  match sources with
  | [] => exact absurd rfl hne
  | [s] => simp [deepMerge]
  | s :: s' :: sources => rfl

/-- What `deepMerge` returns is the clone of the target with the sources merged into it. -/
theorem deepMerge_eq_ok {fuel ret : ℕ} (hne : sources ≠ []) :
    deepMerge R fuel h target sources = .ok (h', ret) ↔
      uncloneable h (.ref target) = false ∧ ret = target + h.size ∧
        sources.foldlM (fun h₁ s => mergeTwoMut R fuel h₁ (.ref (target + h.size)) s) h.copy =
          .ok h' := by
  rw [deepMerge_eq fuel hne, bind_eq_ok]
  unfold structuredClone
  constructor
  · rintro ⟨c, hc, hrun⟩
    split_ifs at hc with hu
    obtain rfl := Except.ok.inj hc
    obtain ⟨h₁, hfold, hret⟩ := bind_eq_ok.mp hrun
    obtain ⟨rfl, rfl⟩ := Prod.mk.inj (Except.ok.inj hret)
    exact ⟨Bool.not_eq_true _ ▸ hu, rfl, hfold⟩
  · rintro ⟨hu, rfl, hfold⟩
    refine ⟨(h.copy, target + h.size), ?_, bind_eq_ok.mpr ⟨h', hfold, rfl⟩⟩
    rw [hu]
    rfl

/-- Without clashes the sources are merged one after the other. -/
theorem foldlM_sources (hv₀ : h₀.Valid) (hs : Sources h₀ P n sources) (hg : Good h₀ r P h)
    (hr : h.isArray r = false) (hc : NoClashes R (h.view (.ref r)) (views h₀ sources)) :
    ∃ h', sources.foldlM (fun h s => mergeTwoMut R n h (.ref r) s) h = .ok h' ∧
      Good h₀ r P h' ∧ h'.view (.ref r) = (views h₀ sources).foldl merge (h.view (.ref r)) := by
  induction sources generalizing h with
  | nil => exact ⟨h, rfl, hg, rfl⟩
  | cons s sources ih =>
    obtain ⟨h₁, hrun, hs₁, hst, hview⟩ := mergeTwoMut_good hv₀ n h [] r s (hs.site hg hr)
      (hs.nested s List.mem_cons_self) hc.1
    have hrest : NoClashes R (h₁.view (.ref r)) (views h₀ sources) := hview ▸ hc.2
    obtain ⟨h', hrun', hg', hview'⟩ := ih hs.tail hs₁.good ((hst.isArray r).trans hr) hrest
    refine ⟨h', foldlM_cons_eq_ok.mpr ⟨h₁, hrun, hrun'⟩, hg', ?_⟩
    rw [hview', hview]
    rfl

/-- When every beginning of the list gives the promised merge, no source clashes. -/
theorem noClashes_of_folds (hv₀ : h₀.Valid) (hP : ∀ p ∈ P, ∀ q, q <+: p → q ∈ P)
    (hs : Sources h₀ P n sources) (hg : Good h₀ r P h) (hr : h.isArray r = false)
    (hmeets : ∀ ss, ss ≠ [] → ss <+: sources → ∃ fuel h',
      ss.foldlM (fun h s => mergeTwoMut R fuel h (.ref r) s) h = .ok h' ∧
        h'.view (.ref r) = (views h₀ ss).foldl merge (h.view (.ref r))) :
    NoClashes R (h.view (.ref r)) (views h₀ sources) := by
  induction sources generalizing h with
  | nil => trivial
  | cons s sources ih =>
    have hsite := hs.site hg hr
    have hclash : NoClash R (h.view (.ref r)) (h₀.view (.ref s)) := by
      by_contra hclash
      obtain ⟨fuel, h', hrun, hview⟩ := hmeets [s] (List.cons_ne_nil s []) (by simp)
      obtain ⟨h₁, hfirst, hnil⟩ := foldlM_cons_eq_ok.mp hrun
      obtain rfl := Except.ok.inj hnil
      obtain ⟨k, t, -, hw⟩ := mergeTwoMut_wrong hv₀ hP (max fuel n) h [] r s h₁ hsite
        ((hs.nested s List.mem_cons_self).mono (Nat.le_max_right ..)) hclash
        (mergeTwoMut_mono (Nat.le_max_left ..) hfirst)
      exact hw (congrFun hview (k :: t))
    obtain ⟨h₁, hrun, hs₁, hst, hview⟩ := mergeTwoMut_good hv₀ n h [] r s hsite
      (hs.nested s List.mem_cons_self) hclash
    refine ⟨hclash, ?_⟩
    change NoClashes R (merge (h.view (.ref r)) (h₀.view (.ref s))) (views h₀ sources)
    rw [← hview]
    refine ih hs.tail hs₁.good ((hst.isArray r).trans hr) fun ss hne hpre => ?_
    obtain ⟨fuel, h', hrun', hview'⟩ := hmeets (s :: ss) (List.cons_ne_nil s ss)
      (List.cons_prefix_cons.mpr ⟨rfl, hpre⟩)
    obtain ⟨h₂, hfirst, hrest⟩ := foldlM_cons_eq_ok.mp hrun'
    have hsame : h₁ = h₂ := Except.ok.inj
      ((mergeTwoMut_mono (Nat.le_max_right fuel n) hrun).symm.trans
        (mergeTwoMut_mono (Nat.le_max_left fuel n) hfirst))
    refine ⟨fuel, h', hsame ▸ hrest, ?_⟩
    rw [hview', hview]
    rfl

/-- On sources that merge into no object which the target has at two places, `deepMerge` returns
the promised merge for the list and for each of its beginnings, and leaves its inputs alone, exactly
when the target can be cloned and no source clashes with the merge of the target and the sources
before it. -/
theorem deepMerge_iff (R : Realm κ) (hi : Input h target sources) (hne : sources ≠ [])
    (hu : Unshared h target sources) :
    (∀ ss, ss ≠ [] → ss <+: sources → Meets R h target ss) ↔
      Cloneable h target ∧ NoClashes R (h.view (.ref target)) (views h sources) := by
  obtain ⟨n, hs⟩ := exists_sources hi
  have hg := good_copy hi hu
  have hr : h.copy.isArray (target + h.size) = false :=
    (isArray_copy_add h target).trans hi.target_plain
  have hview : h.copy.view (.ref (target + h.size)) = h.view (.ref target) :=
    funext fun p => view_copy h (.ref target) p
  rw [← uncloneable_eq_false_iff hi.valid hi.target_lt, ← hview]
  constructor
  · intro hmeets
    obtain ⟨fuel, h', ret, hrun, -⟩ := hmeets sources hne (List.prefix_refl sources)
    refine ⟨((deepMerge_eq_ok hne).mp hrun).1, ?_⟩
    refine noClashes_of_folds hi.valid (fun p hp q => touched_of_isPrefix hp) hs hg hr ?_
    intro ss hss hpre
    obtain ⟨fuel, h', ret, hrun, hres, -⟩ := hmeets ss hss hpre
    obtain ⟨-, rfl, hfold⟩ := (deepMerge_eq_ok hss).mp hrun
    exact ⟨fuel, h', hfold, hview ▸ hres⟩
  · rintro ⟨hclone, hc⟩ ss hss ⟨rest, rfl⟩
    rw [views, List.map_append] at hc
    obtain ⟨h', hfold, hg', hres⟩ := foldlM_sources hi.valid hs.of_append hg hr hc.of_append
    exact ⟨n, h', _, (deepMerge_eq_ok hss).mpr ⟨hclone, rfl, hfold⟩, hview ▸ hres, hg'.frozen⟩

/-- A realm whose plain objects inherit a constructor. -/
def plainRealm : Realm String where
  object key := if key = "constructor" then .builtin 0 else .undefined
  array _ := .undefined
  leaf _ _ := .undefined
  arraySet _ _ _ _ := .ok fun _ => none

def one : Val := .leaf (.primitive (.number 0x3ff0000000000000))

/-- `{ a: { b: 1 } }` and `{ a: { c: 1 } }` -/
def nested : Heap String Leaf :=
  ⟨[Obj.empty.set "a" (.ref 1), Obj.empty.set "b" one, Obj.empty.set "a" (.ref 3),
    Obj.empty.set "c" one]⟩

/-- `{ a: 1 }`, `{ a: { b: 1 } }` and `{ a: undefined }` -/
def clashing : Heap String Leaf :=
  ⟨[Obj.empty.set "a" one, Obj.empty.set "a" (.ref 2), Obj.empty.set "b" one,
    Obj.empty.set "a" (.leaf .undefined)]⟩

/-- `{ a: o, b: o }` for an empty object `o`, and `{ a: { c: 1 } }` -/
def shared : Heap String Leaf :=
  ⟨[(Obj.empty.set "a" (.ref 1)).set "b" (.ref 1), Obj.empty, Obj.empty.set "a" (.ref 3),
    Obj.empty.set "c" one]⟩

-- the clone keeps the sharing, and what is merged under `a` shows under `b`
example : (deepMerge plainRealm 2 shared 0 [2]).toOption.map
    (fun ret => ret.1.view (.ref ret.2) ["b", "c"]) =
      some (some (.leaf (.primitive (.number 0x3ff0000000000000)))) := by
  decide

theorem own_nested (l : ℕ) (k : String) : nested.own l k =
    if l = 0 ∧ k = "a" then some (.ref 1) else if l = 1 ∧ k = "b" then some one
    else if l = 2 ∧ k = "a" then some (.ref 3) else if l = 3 ∧ k = "c" then some one
    else none := by
  match l with
  | 0 | 1 | 2 | 3 => simp [own, obj, nested, Obj.own_set, Obj.empty]
  | l + 4 => simp [own, obj, nested, Obj.empty]

theorem own_nested_ref {l m : ℕ} {k : String} (h : nested.own l k = some (.ref m)) :
    l = 0 ∧ k = "a" ∧ m = 1 ∨ l = 2 ∧ k = "a" ∧ m = 3 := by
  rw [own_nested] at h
  split_ifs at h <;> simp_all [one]

theorem input_nested : Input nested 0 [2] where
  valid l k m hm := by
    obtain ⟨-, -, rfl⟩ | ⟨-, -, rfl⟩ := own_nested_ref hm <;> decide
  target_lt := by decide
  target_plain := by decide
  source_lt := by decide
  source_plain := by decide
  nested s hs := by
    obtain rfl := List.mem_singleton.mp hs
    refine ⟨2, fun k m hm _ j x hx => ?_⟩
    obtain ⟨h2, -⟩ | ⟨-, -, rfl⟩ := own_nested_ref hm
    · cases h2
    · obtain ⟨h3, -⟩ | ⟨h3, -⟩ := own_nested_ref hx <;> cases h3

theorem unshared_nested : Unshared nested 0 [2] := by
  refine unshared_of_tree (fun l k _ h => ?_) fun l l' k k' m _ _ h h' => ?_
  · obtain ⟨-, -, h0⟩ | ⟨-, -, h0⟩ := own_nested_ref h <;> cases h0
  · obtain ⟨rfl, rfl, rfl⟩ | ⟨rfl, rfl, rfl⟩ := own_nested_ref h <;>
      obtain ⟨rfl, rfl, hm⟩ | ⟨rfl, rfl, hm⟩ := own_nested_ref h' <;>
      first | exact ⟨rfl, rfl⟩ | cases hm

theorem noClash_nested : NoClash plainRealm (nested.view (.ref 0)) (nested.view (.ref 2)) := by
  refine (noClash_iff rfl).mpr fun k => ?_
  by_cases hk : k = "a"
  · subst hk
    refine ⟨by decide, fun _ => (noClash_iff rfl).mpr fun j => ?_⟩
    by_cases hj : j = "c"
    · subst hj
      have hleaf : nested.view (.ref 2) ["a", "c"] ≠ some .object := by decide
      exact ⟨by decide, fun h => absurd h hleaf⟩
    · refine noClashAt_of_none ?_
      change nested.view (.ref 2) ["a", j] = none
      rw [view_cons (v := .ref 3) (by decide), view_singleton, own_nested]
      simp [hj]
  · refine noClashAt_of_none ?_
    rw [view_singleton, own_nested]
    simp [hk]

theorem cloneable_nested : Cloneable nested 0 :=
  (uncloneable_eq_false_iff input_nested.valid input_nested.target_lt).mp (by decide)

theorem deepMerge_nested : Meets plainRealm nested 0 [2] :=
  (deepMerge_iff plainRealm input_nested (List.cons_ne_nil 2 []) unshared_nested).mpr
    ⟨cloneable_nested, noClash_nested, trivial⟩ [2] (List.cons_ne_nil 2 []) (List.prefix_refl [2])

/-- A plain object is not merged into a number, and `undefined` does not leave it. -/
theorem deepMerge_clashing :
    ¬ Meets plainRealm clashing 0 [1] ∧ ¬ Meets plainRealm clashing 0 [3] := by
  constructor
  · rintro ⟨fuel, h', ret, hrun, -⟩
    match fuel with
    | 0 => cases hrun
    | 1 => cases hrun
    | fuel + 2 => cases hrun
  · rintro ⟨fuel, h', ret, hrun, hview, -⟩
    cases fuel with
    | zero => cases hrun
    | succ fuel =>
      obtain ⟨rfl, rfl⟩ := Prod.mk.inj (Except.ok.inj hrun)
      have ha := congrFun hview ["a"]
      revert ha
      decide

end Thcdb.Frontend.DeepMerge
