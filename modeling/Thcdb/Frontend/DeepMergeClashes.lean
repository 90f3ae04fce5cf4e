import Thcdb.Frontend.DeepMergeFrame
import Thcdb.Frontend.DeepMergeRuns

namespace Thcdb.Frontend.DeepMerge

open Objects Heap
open Fallible (bind_eq_ok foldlM_keeps foldlM_cons_eq_ok)

variable {κ : Type}

/-- The proper beginnings of `w` lead to plain objects of the result, each found on this path only
and not by way of the inputs, which have the places below `b`. -/
def Chain (b r : ℕ) (w : List κ) (h : Heap κ Leaf) : Prop :=
  ∀ q, q <+: w → q ≠ w → ∃ m, h.walk (.ref r) q = some (.ref m) ∧ h.isArray m = false ∧
    m < h.size ∧ (∀ t, h.walk (.ref r) t = some (.ref m) → t = q) ∧
    ∀ i < b, ∀ t, h.walk (.ref i) t ≠ some (.ref m)

def Chain.Aside (r : ℕ) (w : List κ) (h : Heap κ Leaf) : Set ℕ :=
  {z | ∀ q, q <+: w → q ≠ w → ∀ m, h.walk (.ref r) q = some (.ref m) →
    ∀ t, h.walk (.ref z) t ≠ some (.ref m)}

/-- One property of an object outside the set is set to a value of the set, or not at all, and else
only the set has changed. -/
structure CellWithin (Z : Set ℕ) (l : ℕ) (k : κ) (h h' : Heap κ Leaf) : Prop where
  outside : ∀ m ∉ Z, ∀ j, ¬ (m = l ∧ j = k) → h'.own m j = h.own m j
  cell : ∀ m, h'.own l k = some (.ref m) → m ∈ Z
  closed : h'.Closed Z
  isArray : ∀ m, h'.isArray m = h.isArray m
  size_le : h.size ≤ h'.size

variable {R : Realm κ} {Z : Set ℕ} {h₀ h h' : Heap κ Leaf} {b r l m s n x : ℕ} {k : κ}
  {p q w : List κ} {P : Set (List κ)} {v : Val}

theorem CellWithin.refl (hZ : h.Closed Z) (hcell : ∀ m, h.own l k = some (.ref m) → m ∈ Z) :
    CellWithin Z l k h h :=
  ⟨fun _ _ _ _ => rfl, hcell, hZ, fun _ => rfl, Nat.le_refl _⟩

theorem CellWithin.within {h'' : Heap κ Leaf} (hc : CellWithin Z l k h h') (hl : l ∉ Z)
    (hw : Within Z h' h'') : CellWithin Z l k h h'' where
  outside m hm j hne := (congrArg (·.own j) (hw.outside m hm)).trans (hc.outside m hm j hne)
  cell m hm := hc.cell m ((congrArg (·.own k) (hw.outside l hl)).symm.trans hm)
  closed := hw.closed
  isArray m := (hw.isArray m).trans (hc.isArray m)
  size_le := hc.size_le.trans hw.size_le

namespace Chain

theorem notMem_aside (hq : q <+: w) (hne : q ≠ w) (hm : h.walk (.ref r) q = some (.ref m)) :
    m ∉ Aside r w h :=
  fun hz => hz q hq hne m hm [] (walk_nil h _)

theorem closed_aside : h.Closed (Aside r w h) := by
  intro z hz k m hm q hq hne x hx t ht
  refine hz q hq hne x hx (k :: t) ?_
  rw [walk_ref_cons, hm]
  exact ht

theorem new_aside (hc : Chain b r w h) {z : ℕ} (hz : h.size ≤ z) : z ∈ Aside r w h := by
  intro q hq hne m hm t ht
  obtain ⟨-, hzm⟩ := walk_of_empty (obj_of_size_le hz) ht
  obtain ⟨m', hm', -, hlt, -⟩ := hc q hq hne
  obtain rfl := walk_ref_inj hm' hm
  obtain rfl := Value.ref.inj hzm
  omega

theorem input_aside (hc : Chain b r w h) {i : ℕ} (hi : i < b) : i ∈ Aside r w h := by
  intro q hq hne m hm t ht
  obtain ⟨m', hm', -, -, -, hin⟩ := hc q hq hne
  obtain rfl := walk_ref_inj hm' hm
  exact hin i hi t ht

/-- A property of the chain that the chain does not go through leads aside. -/
theorem cell_aside (hc : Chain b r w h) (hl : h.walk (.ref r) p = some (.ref l))
    (hoff : ∀ q, q <+: w → q ≠ w → ¬ p ++ [k] <+: q) (hm : h.own l k = some (.ref m)) :
    m ∈ Aside r w h := by
  intro q hq hne x hx t ht
  obtain ⟨x', hx', -, -, huniq, -⟩ := hc q hq hne
  obtain rfl := walk_ref_inj hx' hx
  have hwalk : h.walk (.ref r) (p ++ k :: t) = some (.ref x') := by
    rw [walk_append_of_walk hl, walk_ref_cons, hm]
    exact ht
  refine hoff q hq hne ?_
  rw [← huniq _ hwalk]
  exact ⟨t, by simp⟩

/-- What is done aside, and to a property off the chain, leaves the chain. -/
theorem cellWithin (hc : Chain b r w h) (hp : p <+: w) (hpw : p ≠ w)
    (hl : h.walk (.ref r) p = some (.ref l))
    (hoff : ∀ q, q <+: w → q ≠ w → ¬ p ++ [k] <+: q)
    (hcw : CellWithin (Aside r w h) l k h h') :
    Chain b r w h' ∧
      ∀ q, q <+: w → ¬ p ++ [k] <+: q → h'.walk (.ref r) q = h.walk (.ref r) q := by
  have hwalk : ∀ q, q <+: w → ¬ p ++ [k] <+: q →
      h'.walk (.ref r) q = h.walk (.ref r) q := by
    intro q hq hon
    refine walk_congr fun t j m ht hm => ?_
    have htw : t <+: w := (List.prefix_append t [j]).trans (ht.trans hq)
    have hne : t ≠ w := by
      rintro rfl
      exact not_isPrefix_snoc t j (ht.trans hq)
    refine hcw.outside m (notMem_aside htw hne hm) j ?_
    rintro ⟨rfl, rfl⟩
    obtain ⟨m', hm', -, -, huniq, -⟩ := hc t htw hne
    obtain rfl := walk_ref_inj hm' hm
    exact hon (huniq p hl ▸ ht)
  refine ⟨fun q hq hne => ?_, hwalk⟩
  obtain ⟨m, hm, harr, hlt, huniq, -⟩ := hc q hq hne
  have hmZ := notMem_aside hq hne hm
  refine ⟨m, (hwalk q hq (hoff q hq hne)).trans hm, (hcw.isArray m).trans harr,
    hlt.trans_le hcw.size_le, fun t ht => ?_, fun i hi t ht => ?_⟩
  · refine huniq t (walk_back hcw.closed (fun y hy j v hv => ?_) hmZ ht)
    by_cases hcell : y = l ∧ j = k
    · obtain ⟨rfl, rfl⟩ := hcell
      cases v with
      | leaf a => exact .inl trivial
      | ref z => exact .inl (hcw.cell z hv)
    · exact .inr ((hcw.outside y hy j hcell).symm.trans hv)
  · exact hmZ (walk_in (v := .ref i) hcw.closed (hc.input_aside hi) ht)

end Chain

/-- Up to a site the objects of the result form a chain. -/
theorem Site.chain (hs : Site h₀ r P h p l s) (hv₀ : h₀.Valid)
    (hP : ∀ p ∈ P, ∀ q, q <+: p → q ∈ P) (k : κ) : Chain h₀.size r (p ++ [k]) h := by
  intro q hq hne
  obtain hq' | hq := List.prefix_concat_iff.mp hq
  · exact absurd hq' hne
  have hpl := hs.plain.of_isPrefix hq
  obtain ⟨m, hm, harr⟩ := view_eq_object.mp hpl.apply
  have hle := hs.good.le_of_plain hpl hm
  refine ⟨m, hm, harr, hs.good.walk_lt hm, hs.good.sole q (hP p hs.mem q hq) hpl m hm,
    fun i hi t ht => ?_⟩
  have hlt : m < h₀.size := walk_in (v := .ref i) (hs.good.inputs_closed' hv₀) hi ht
  omega

theorem isPrefix_concat_off {p q : List κ} {k : κ} (hq : q <+: p ++ [k]) (hne : q ≠ p ++ [k]) :
    ¬ p ++ [k] <+: q :=
  fun hpre => hne (hq.eq_of_length_le hpre.length_le)

/-- What is incompatible with a plain object is not nullish, and none. -/
theorem holds_incompatible (hs : Site h₀ r P h p l s)
    (hc : ¬ (h.view (.ref l) [k] = none ∧ (R.object k).isNullish = true ∨
      h.view (.ref l) [k] = some .object ∨ h.view (.ref l) [k] = some (.leaf .undefined) ∨
        h.view (.ref l) [k] = some (.leaf .null))) :
    h.view (.ref l) [k] ≠ some .object ∧
      ∃ v, get R h (.ref l) k = .ok v ∧ isNullish v = false := by
  obtain ⟨hnone, hc⟩ := not_or.mp hc
  obtain ⟨hobj, hc⟩ := not_or.mp hc
  obtain ⟨hundef, hnull⟩ := not_or.mp hc
  refine ⟨hobj, ?_⟩
  rw [view_singleton] at hnone hundef hnull
  cases hown : h.own l k with
  | none =>
    refine ⟨_, get_inherited hs.isArray hown, ?_⟩
    rw [hown] at hnone
    simpa [isNullish] using hnone
  | some v =>
    refine ⟨v, get_own hown, ?_⟩
    rw [hown] at hundef hnull
    cases v with
    | ref z => rfl
    | leaf a => cases a <;> simp_all [shape, isNullish, Leaf.isNullish]

variable [DecidableEq κ]

theorem CellWithin.put (hZ : h.Closed Z) (hl : l ∉ Z) (hlt : l < h.size) (hv : v.In Z) :
    CellWithin Z l k h (h.put l k v) where
  outside m _ j hne := own_put_of_ne hlt v hne
  cell m hm := by
    rw [own_put_self hlt] at hm
    obtain rfl := Option.some.inj hm
    exact hv
  closed m hm j y hy := by
    have hne : ¬ (m = l ∧ j = k) := fun he => hl (he.1 ▸ hm)
    exact hZ m hm j y ((own_put_of_ne hlt v hne).symm.trans hy)
  isArray := isArray_put h l k v
  size_le := (size_put h l k v).ge

theorem setDefault_cellWithin (hZ : h.Closed Z) (hnew : ∀ i, h.size ≤ i → i ∈ Z) (hl : l ∉ Z)
    (hlp : h.isArray l = false) (hcell : ∀ m, h.own l k = some (.ref m) → m ∈ Z)
    (hset : setDefault R h (.ref l) k = .ok h') : CellWithin Z l k h h' := by
  obtain ⟨old, -, hset⟩ := bind_eq_ok.mp hset
  split_ifs at hset
  · have halloc := Within.alloc hZ
    have hlt : l < h.alloc.size := by
      by_contra hlt
      exact hl (hnew l (halloc.size_le.trans (Nat.not_lt.mp hlt)))
    obtain rfl := Except.ok.inj ((set_plain (by rwa [isArray_alloc]) k _).symm.trans hset)
    have hput : CellWithin Z l k h.alloc (h.alloc.put l k (.ref h.size)) :=
      CellWithin.put (v := .ref h.size) halloc.closed hl hlt (hnew h.size (Nat.le_refl _))
    exact ⟨fun m hm j hne => (hput.outside m hm j hne).trans (own_alloc h m j), hput.cell,
      hput.closed, fun m => (hput.isArray m).trans (isArray_alloc h m),
      halloc.size_le.trans hput.size_le⟩
  · obtain rfl := Except.ok.inj hset
    exact CellWithin.refl hZ hcell

/-- One turn of the loop, with a target outside a closed set that holds all else. -/
theorem mergeKey_cellWithin (hZ : h.Closed Z) (hnew : ∀ i, h.size ≤ i → i ∈ Z) (hs : s ∈ Z)
    (hl : l ∉ Z) (hlp : h.isArray l = false)
    (hcell : ∀ m, h.own l k = some (.ref m) → m ∈ Z)
    (hrun : mergeKey R (mergeTwoMut R n) (.ref l) s h k = .ok h') :
    CellWithin Z l k h h' := by
  have hlt : l < h.size := by
    by_contra hlt
    exact hl (hnew l (Nat.not_lt.mp hlt))
  unfold mergeKey at hrun
  split at hrun
  next => exact Except.ok.inj hrun ▸ CellWithin.refl hZ hcell
  next a ho =>
    obtain rfl := Except.ok.inj ((set_plain hlp k (.leaf a)).symm.trans hrun)
    exact CellWithin.put (v := .leaf a) hZ hl hlt trivial
  next y ho =>
    have hy : y ∈ Z := hZ s hs k y ho
    split_ifs at hrun
    · obtain ⟨h₁, hdef, hrun⟩ := bind_eq_ok.mp hrun
      obtain ⟨next, hget, hrun⟩ := bind_eq_ok.mp hrun
      have hcw := setDefault_cellWithin hZ hnew hl hlp hcell hdef
      refine hcw.within hl (mergeTwoMut_within n hcw.closed
        (fun i hi => hnew i (hcw.size_le.trans hi))
        (get_plain_in ((hcw.isArray l).trans hlp) hcw.cell hget) hy hrun)
    · obtain rfl := Except.ok.inj ((set_plain hlp k (.ref y)).symm.trans hrun)
      exact CellWithin.put (v := .ref y) hZ hl hlt hy

/-- One turn of the loop at an object of the chain, under a key that the chain does not go
through, leaves the chain. -/
theorem Chain.mergeKey (hc : Chain b r w h) (hp : p <+: w) (hpw : p ≠ w)
    (hl : h.walk (.ref r) p = some (.ref l))
    (hoff : ∀ q, q <+: w → q ≠ w → ¬ p ++ [k] <+: q) (hs : s < b)
    (hrun : mergeKey R (mergeTwoMut R n) (.ref l) s h k = .ok h') :
    Chain b r w h' ∧ (∀ m, h'.isArray m = h.isArray m) ∧
      ∀ q, q <+: w → ¬ p ++ [k] <+: q → h'.walk (.ref r) q = h.walk (.ref r) q := by
  obtain ⟨l', hl', harr, -⟩ := hc p hp hpw
  obtain rfl := walk_ref_inj hl' hl
  have hcw := mergeKey_cellWithin Chain.closed_aside (fun i hi => hc.new_aside hi)
    (hc.input_aside hs) (Chain.notMem_aside hp hpw hl') harr
    (fun m hm => hc.cell_aside hl' hoff hm) hrun
  obtain ⟨hc', hwalk⟩ := hc.cellWithin hp hpw hl' hoff hcw
  exact ⟨hc', hcw.isArray, hwalk⟩

def Wrong (b r : ℕ) (w : List κ) (x : Option (Shape Leaf)) (h : Heap κ Leaf) : Prop :=
  Chain b r w h ∧ h.view (.ref r) w ≠ x

theorem Wrong.mergeKey {j : κ} {t : List κ} {x : Option (Shape Leaf)}
    (hw : Wrong b r (p ++ j :: t) x h) (hkj : k ≠ j) (hl : h.walk (.ref r) p = some (.ref l))
    (hs : s < b) (hrun : mergeKey R (mergeTwoMut R n) (.ref l) s h k = .ok h') :
    Wrong b r (p ++ j :: t) x h' ∧ h'.walk (.ref r) p = some (.ref l) := by
  have hp : p <+: p ++ j :: t := List.prefix_append ..
  have hpw : p ≠ p ++ j :: t := by simp
  have hoff : ¬ p ++ [k] <+: p ++ j :: t := fun hpre =>
    hkj (List.cons_prefix_cons.mp ((List.prefix_append_right_inj p).mp hpre)).1
  obtain ⟨hc, harr, hwalk⟩ := hw.1.mergeKey hp hpw hl (fun q hq _ hpre => hoff (hpre.trans hq)) hs
    hrun
  refine ⟨⟨hc, ?_⟩, (hwalk p hp (not_isPrefix_snoc p k)).trans hl⟩
  rw [view_of_walk harr (hwalk _ (List.prefix_refl _) hoff)]
  exact hw.2

/-- A turn of the loop leaves the target where it is. -/
theorem Site.mergeKey (hv₀ : h₀.Valid) (hP : ∀ p ∈ P, ∀ q, q <+: p → q ∈ P)
    (hs : Site h₀ r P h p l s) (hrun : mergeKey R (mergeTwoMut R n) (.ref l) s h k = .ok h') :
    Chain h₀.size r (p ++ [k]) h' ∧ (∀ m, h'.isArray m = h.isArray m) ∧
      h'.walk (.ref r) p = some (.ref l) := by
  have hp : p <+: p ++ [k] := List.prefix_append ..
  obtain ⟨hc', harr, hwalk⟩ := (hs.chain hv₀ hP k).mergeKey hp (by simp) hs.path
    (fun _ => isPrefix_concat_off) hs.source_lt hrun
  exact ⟨hc', harr, (hwalk p hp (not_isPrefix_snoc p k)).trans hs.path⟩

/-- A value that is not nullish stays under its key when a plain object is merged into it. -/
theorem mergeKey_stays (hv₀ : h₀.Valid) (hP : ∀ p ∈ P, ∀ q, q <+: p → q ∈ P)
    (hs : Site h₀ r P h p l s) (hk : h₀.own s k = some (.ref x)) (hx : h₀.isArray x = false)
    (hget : get R h (.ref l) k = .ok v) (hv : isNullish v = false)
    (hrun : mergeKey R (mergeTwoMut R n) (.ref l) s h k = .ok h') : h'.own l k = h.own l k := by
  have hchain := hs.chain hv₀ hP k
  rw [mergeKey_kept hs hv₀ hk hx hget hv] at hrun
  have hin : v.In (Chain.Aside r (p ++ [k]) h) := get_plain_in hs.isArray
    (fun z hz => hchain.cell_aside hs.path (fun _ => isPrefix_concat_off) hz) hget
  have hwithin := mergeTwoMut_within n Chain.closed_aside (fun i hi => hchain.new_aside hi) hin
    (hchain.input_aside (hv₀ s k x hk)) hrun
  have hl := Chain.notMem_aside (List.prefix_append p [k]) (by simp) hs.path
  exact congrArg (·.own k) (hwithin.outside l hl)

/-- An incompatible value under a key ends up wrong. -/
theorem mergeKey_incompatible (hv₀ : h₀.Valid) (hP : ∀ p ∈ P, ∀ q, q <+: p → q ∈ P)
    (hs : Site h₀ r P h p l s) (hk : h₀.own s k = some v)
    (hc : ¬ Compatible R k (h.view (.ref l) [k]) (h₀.view (.ref s) [k]))
    (hrun : mergeKey R (mergeTwoMut R n) (.ref l) s h k = .ok h') :
    Wrong h₀.size r (p ++ [k]) (merge (h.view (.ref l)) (h₀.view (.ref s)) [k]) h' := by
  obtain ⟨hc', harr, hwalk⟩ := hs.mergeKey hv₀ hP hrun
  refine ⟨hc', ?_⟩
  rw [view_append_of_walk hwalk]
  have hS : h₀.view (.ref s) [k] = some (h₀.shape v) := by
    rw [view_singleton, hk, Option.map_some]
  rcases not_and_or.mp hc with hc | hc
  · -- `undefined` replaces a value
    obtain ⟨hu, ht⟩ := Classical.not_imp.mp hc
    obtain ⟨hnone, hundef⟩ := not_or.mp ht
    obtain rfl := shape_eq_leaf.mp (Option.some.inj (hS.symm.trans hu))
    rw [mergeKey_assign hs hk (fun y hy => by cases hy)] at hrun
    obtain rfl := Except.ok.inj hrun
    rw [merge_undefined hu hnone, view_singleton, own_put_self hs.lt]
    exact Ne.symm hundef
  · -- a plain object is merged into what is none
    obtain ⟨ho, ht⟩ := Classical.not_imp.mp hc
    obtain ⟨y, rfl, hy⟩ := shape_eq_object.mp (Option.some.inj (hS.symm.trans ho))
    obtain ⟨hobj, u, hget, hu⟩ := holds_incompatible hs ht
    rw [merge_object_right ho hobj, ho]
    intro hview
    refine hobj ?_
    rw [view_singleton, mergeKey_stays hv₀ hP hs hk hy hget hu hrun] at hview
    obtain ⟨u', hu', hsh⟩ := Option.map_eq_some_iff.mp hview
    obtain ⟨z, rfl, hz⟩ := shape_eq_object.mp hsh
    exact view_object_of_own hu' ((harr z).symm.trans hz)

/-- Where the sides clash, a merge that ends leaves something wrong. -/
def Fails (R : Realm κ) (h₀ : Heap κ Leaf) (r : ℕ) (P : Set (List κ)) (n : ℕ) : Prop :=
  ∀ h p l s h', Site h₀ r P h p l s → NestedWithin h₀ n s →
    ¬ NoClash R (h.view (.ref l)) (h₀.view (.ref s)) →
    mergeTwoMut R n h (.ref l) s = .ok h' →
    ∃ k t, Wrong h₀.size r (p ++ k :: t) (merge (h.view (.ref l)) (h₀.view (.ref s)) (k :: t)) h'

theorem mergeKey_wrong (hv₀ : h₀.Valid) (hP : ∀ p ∈ P, ∀ q, q <+: p → q ∈ P)
    (ih : Fails R h₀ r P n) (hs : Site h₀ r P h p l s) (hn : NestedWithin h₀ (n + 1) s)
    (hk : h₀.own s k = some v) (hc : ¬ NoClashAt R (h.view (.ref l)) (h₀.view (.ref s)) k)
    (hrun : mergeKey R (mergeTwoMut R n) (.ref l) s h k = .ok h') :
    ∃ t, Wrong h₀.size r (p ++ k :: t)
      (merge (h.view (.ref l)) (h₀.view (.ref s)) (k :: t)) h' := by
  by_cases hcompat : Compatible R k (h.view (.ref l) [k]) (h₀.view (.ref s) [k])
  · obtain ⟨hS, hclash⟩ := Classical.not_imp.mp fun hi => hc ⟨hcompat, hi⟩
    rw [hS] at hcompat
    have hshape : h₀.shape v = .object := by
      rw [view_singleton, hk] at hS
      exact Option.some.inj hS
    obtain ⟨x, rfl, hx⟩ := shape_eq_object.mp hshape
    have hsub : View.sub (h₀.view (.ref s)) k = h₀.view (.ref x) := funext (view_cons hk)
    rw [hsub] at hclash
    obtain ⟨m, hm, hmp⟩ | ⟨hT, hnone, old, hget, hnull⟩ := holds_cases hs hcompat
    · have hleft : View.sub (h.view (.ref l)) k = h.view (.ref m) := funext (view_cons hm)
      have hT : h.view (.ref l) [k] = some .object := view_object_of_own hm hmp
      rw [hleft] at hclash
      rw [mergeKey_kept hs hv₀ hk hx (get_own hm) rfl] at hrun
      obtain ⟨j, t, hw⟩ := ih h _ m x h' (hs.child hv₀ hm hmp hk hx) (hn k x hk hx) hclash hrun
      refine ⟨j :: t, ?_⟩
      rw [merge_both hT hS, hleft, hsub]
      simpa using hw
    · obtain ⟨hchild, -, hnil, hfill⟩ := made_child hv₀ hs hk hx
      rw [mergeKey_new hs hv₀ hk hx hget hnull] at hrun
      obtain ⟨j, t, hw⟩ := ih _ _ _ x h' hchild (hn k x hk hx)
        (fun hno => hclash ((noClash_congr fun j t => (hnone j t).trans (hnil j t).symm).mpr hno))
        hrun
      refine ⟨j :: t, ?_⟩
      rw [merge_object_right hS hT, ← hfill]
      simpa using hw
  · exact ⟨[], mergeKey_incompatible hv₀ hP hs hk hcompat hrun⟩

theorem foldlM_wrong (hv₀ : h₀.Valid) (hP : ∀ p ∈ P, ∀ q, q <+: p → q ∈ P)
    (ih : Fails R h₀ r P n) (hn : NestedWithin h₀ (n + 1) s) (keys : List κ)
    (hnodup : keys.Nodup) (hkeys : ∀ k ∈ keys, k ∈ (h₀.obj s).keys) :
    ∀ h, Site h₀ r P h p l s →
      (∃ k ∈ keys, ¬ NoClashAt R (h.view (.ref l)) (h₀.view (.ref s)) k) →
      keys.foldlM (mergeKey R (mergeTwoMut R n) (.ref l) s) h = .ok h' →
      ∃ k t, k ∈ keys ∧ Wrong h₀.size r (p ++ k :: t)
        (merge (h.view (.ref l)) (h₀.view (.ref s)) (k :: t)) h' := by
  induction keys with
  | nil =>
    rintro h hs ⟨k, hk, -⟩
    cases hk
  | cons j keys ihk =>
    intro h hs hclash hrun
    obtain ⟨hj, hnodup⟩ := List.nodup_cons.mp hnodup
    obtain ⟨v, hv⟩ := Obj.exists_own_of_mem (hkeys j List.mem_cons_self)
    obtain ⟨h₁, hfirst, hrest⟩ := foldlM_cons_eq_ok.mp hrun
    by_cases hc : NoClashAt R (h.view (.ref l)) (h₀.view (.ref s)) j
    · -- the clash is under one of the other keys
      obtain ⟨h₂, hrun₂, hs₁, hst, -⟩ := mergeKey_good hv₀ (mergeTwoMut_good hv₀ n) hs hn hv hc
      obtain rfl := Except.ok.inj (hrun₂.symm.trans hfirst)
      have hne {k : κ} (hk : k ∈ keys) : k ≠ j := fun he => hj (he ▸ hk)
      obtain ⟨k, hk, hck⟩ := hclash
      obtain rfl | hk := List.mem_cons.mp hk
      · exact absurd hc hck
      obtain ⟨k', t, hk', hw⟩ := ihk hnodup (fun k hk => hkeys k (List.mem_cons_of_mem j hk)) h₂ hs₁
        ⟨k, hk, mt (noClashAt_congr (hs.other hs₁ hst (hne hk))).mp hck⟩ hrest
      refine ⟨k', t, List.mem_cons_of_mem j hk', ?_⟩
      rwa [merge_congr (hs.other hs₁ hst (hne hk'))] at hw
    · obtain ⟨t, hw⟩ := mergeKey_wrong hv₀ hP ih hs hn hv hc hfirst
      have hkeep : Wrong h₀.size r (p ++ j :: t)
          (merge (h.view (.ref l)) (h₀.view (.ref s)) (j :: t)) h' ∧
            h'.walk (.ref r) p = some (.ref l) := by
        refine foldlM_keeps (P := fun h₁ => Wrong h₀.size r (p ++ j :: t)
          (merge (h.view (.ref l)) (h₀.view (.ref s)) (j :: t)) h₁ ∧
            h₁.walk (.ref r) p = some (.ref l)) (fun h₁ k h₂ hk hh hturn => ?_) ⟨hw, ?_⟩ hrest
        · exact hh.1.mergeKey (fun he => hj (he ▸ hk)) hh.2 hs.source_lt hturn
        · exact (hs.mergeKey hv₀ hP hfirst).2.2
      exact ⟨j, t, List.mem_cons_self, hkeep.1⟩

/-- A merge in place that meets a clash fails, or leaves something wrong. -/
theorem mergeTwoMut_wrong (hv₀ : h₀.Valid) (hP : ∀ p ∈ P, ∀ q, q <+: p → q ∈ P) (n : ℕ) :
    Fails R h₀ r P n := by
  induction n with
  | zero =>
    intro h p l s h' _ hn
    exact hn.elim
  | succ n ih =>
    intro h p l s h' hs hn hclash hrun
    have hkeys : (h.obj s).keys = (h₀.obj s).keys := by rw [hs.good.frozen s hs.source_lt]
    rw [noClash_iff (Site.source_object hs.source_plain), not_forall] at hclash
    obtain ⟨k, hk⟩ := hclash
    have hmem : k ∈ (h₀.obj s).keys := by
      by_contra hnot
      refine hk (noClashAt_of_none ?_)
      rw [view_singleton, own, Obj.own_of_notMem hnot, Option.map_none]
    rw [mergeTwoMut, hkeys] at hrun
    obtain ⟨j, t, -, hw⟩ := foldlM_wrong hv₀ hP ih hn (h₀.obj s).keys (h₀.obj s).nodup
      (fun _ hk => hk) h hs ⟨k, hmem, hk⟩ hrun
    exact ⟨j, t, hw⟩

end Thcdb.Frontend.DeepMerge
