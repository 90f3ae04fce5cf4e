import Thcdb.Frontend.DeepMergeSites

namespace Thcdb.Frontend.DeepMerge

open Objects Heap

variable {κ : Type}

def NestedWithin (h : Heap κ Leaf) : ℕ → ℕ → Prop
  | 0, _ => False
  | n + 1, l => ∀ k m, h.own l k = some (.ref m) → h.isArray m = false → NestedWithin h n m

variable {R : Realm κ} {h₀ h h' : Heap κ Leaf} {r l m s n x : ℕ} {k : κ}
  {p q : List κ} {P : Set (List κ)} {v : Val}

/-- What the key holds when a plain object is merged into it without a clash. -/
theorem holds_cases (hs : Site h₀ r P h p l s)
    (hc : Compatible R k (h.view (.ref l) [k]) (some .object)) :
    (∃ m, h.own l k = some (.ref m) ∧ h.isArray m = false) ∨
      h.view (.ref l) [k] ≠ some .object ∧ (∀ j t, h.view (.ref l) (k :: j :: t) = none) ∧
        ∃ v, get R h (.ref l) k = .ok v ∧ isNullish v = true := by
  obtain ⟨hn, hi⟩ | ho | ho | ho := hc.2 rfl
  · have hown := Option.map_eq_none_iff.mp ((view_singleton h l k).symm.trans hn)
    exact .inr ⟨by simp [hn], fun j t => view_cons_of_none hown _, _,
      get_inherited hs.isArray hown, hi⟩
  · obtain ⟨v, hv, hsh⟩ := Option.map_eq_some_iff.mp ((view_singleton h l k).symm.trans ho)
    obtain ⟨m, rfl, hm⟩ := shape_eq_object.mp hsh
    exact .inl ⟨m, hv, hm⟩
  all_goals
    obtain ⟨v, hv, hsh⟩ := Option.map_eq_some_iff.mp ((view_singleton h l k).symm.trans ho)
    obtain rfl := shape_eq_leaf.mp hsh
    exact .inr ⟨by simp [ho], fun j t => view_cons hv _, _, get_own hv, rfl⟩

variable [DecidableEq κ]

/-- Where the sides do not clash, fuel for the nesting of the source is enough for the merge. -/
def Merges (R : Realm κ) (h₀ : Heap κ Leaf) (r : ℕ) (P : Set (List κ)) (n : ℕ) : Prop :=
  ∀ h p l s, Site h₀ r P h p l s → NestedWithin h₀ n s →
    NoClash R (h.view (.ref l)) (h₀.view (.ref s)) →
    ∃ h', mergeTwoMut R n h (.ref l) s = .ok h' ∧ Site h₀ r P h' p l s ∧ Step r p h h' ∧
      h'.view (.ref l) = merge (h.view (.ref l)) (h₀.view (.ref s))

/-- A value that is no plain object is assigned. -/
theorem mergeKey_assign (hs : Site h₀ r P h p l s) (hk : h₀.own s k = some v)
    (hv : ∀ x, v = .ref x → h.isArray x = true) (f) :
    mergeKey R f (.ref l) s h k = .ok (h.put l k v) := by
  have hown : h.own s k = some v := (hs.good.own_input hs.source_lt k).trans hk
  rw [mergeKey, hown]
  cases v with
  | leaf a => exact set_plain hs.isArray k _
  | ref x =>
    simp only [hv x rfl, Bool.not_true, Bool.false_and, Bool.false_eq_true, if_false]
    exact set_plain hs.isArray k _

/-- A plain object is merged into what the key holds, or is given. -/
theorem mergeKey_object (hs : Site h₀ r P h p l s) (hv₀ : h₀.Valid)
    (hk : h₀.own s k = some (.ref x)) (hx : h₀.isArray x = false) (target : Val) (f) :
    mergeKey R f target s h k = (do
      let h ← setDefault R h target k
      let next ← get R h target k
      f h next x) := by
  have hown : h.own s k = some (.ref x) := (hs.good.own_input hs.source_lt k).trans hk
  have hsp : h.isArray s = false := (hs.good.isArray_input hs.source_lt).trans hs.source_plain
  have hxp : h.isArray x = false := (hs.good.isArray_input (hv₀ s k x hk)).trans hx
  rw [mergeKey, hown]
  simp only [hxp, hsp, Bool.not_false, Bool.and_self, if_true]

/-- A plain object is merged into what the key holds already. -/
theorem mergeKey_kept (hs : Site h₀ r P h p l s) (hv₀ : h₀.Valid)
    (hk : h₀.own s k = some (.ref x)) (hx : h₀.isArray x = false)
    (hget : get R h (.ref l) k = .ok v) (hv : isNullish v = false) (f) :
    mergeKey R f (.ref l) s h k = f h v x := by
  rw [mergeKey_object hs hv₀ hk hx, setDefault_kept hget hv]
  simp only [bind, Except.bind, hget]

/-- A plain object is merged into a new object. -/
theorem mergeKey_new (hs : Site h₀ r P h p l s) (hv₀ : h₀.Valid)
    (hk : h₀.own s k = some (.ref x)) (hx : h₀.isArray x = false)
    (hget : get R h (.ref l) k = .ok v) (hv : isNullish v = true) (f) :
    mergeKey R f (.ref l) s h k =
      f (h.alloc.put l k (.ref h.size)) (.ref h.size) x := by
  have hnew : (h.alloc.put l k (.ref h.size)).own l k = some (.ref h.size) :=
    own_put_self (hs.lt.trans (by simp)) k _
  rw [mergeKey_object hs hv₀ hk hx, setDefault_made hs.isArray hget hv]
  simp only [bind, Except.bind, get_own hnew]

theorem assign_good (hv₀ : h₀.Valid) (hs : Site h₀ r P h p l s) (hk : h₀.own s k = some v)
    (hv : ∀ x, v = .ref x → h₀.isArray x = true)
    (hc : Compatible R k (h.view (.ref l) [k]) (h₀.view (.ref s) [k])) :
    Good h₀ r P (h.put l k v) ∧ Step r (p ++ [k]) h (h.put l k v) ∧
      ∀ t, (h.put l k v).view (.ref l) (k :: t) =
        merge (h.view (.ref l)) (h₀.view (.ref s)) (k :: t) := by
  have hw : Writable h₀ h r v := by
    cases v with
    | leaf a => trivial
    | ref x =>
      have hlt := hv₀ s k x hk
      exact .inl ⟨hlt, (hs.good.isArray_input hlt).trans (hv x rfl)⟩
  obtain ⟨hg, hst⟩ := hs.put hv₀ hw k
  refine ⟨hg, hst, fun t => ?_⟩
  have hview : (h.put l k v).view (.ref l) (k :: t) = h₀.view (.ref s) (k :: t) := by
    rw [view_cons (own_put_self hs.lt k v), view_cons hk]
    cases v with
    | leaf a => exact view_leaf _ _ a t
    | ref x =>
      exact view_eq_of_closed (Z := {l | l < h₀.size}) (v := .ref x) (inputs_closed hv₀)
        hg.frozen (hv₀ s k x hk) t
  have hS : h₀.view (.ref s) [k] = some (h₀.shape v) := by
    rw [view_singleton, hk, Option.map_some]
  have hobj : h₀.shape v ≠ .object := by
    intro ho
    obtain ⟨x, rfl, hx⟩ := shape_eq_object.mp ho
    rw [hv x rfl] at hx
    cases hx
  rw [hview]
  by_cases hu : h₀.view (.ref s) [k] = some (.leaf .undefined) ∧ h.view (.ref l) [k] ≠ none
  · -- `undefined` replaces `undefined`
    rw [merge_undefined hu.1 hu.2]
    obtain ht | ht := hc.1 hu.1
    · exact absurd ht hu.2
    · rw [view_singleton, Option.map_eq_some_iff] at ht
      obtain ⟨y, hy, hyu⟩ := ht
      rw [hS, Option.some.injEq, shape_eq_leaf] at hu
      rw [view_cons hy, view_cons hk, shape_eq_leaf.mp hyu, hu.1]
      exact view_leaf _ _ _ t
  · refine (merge_right ?_ ?_ ?_ t).symm
    · rintro ⟨-, ho⟩
      rw [hS] at ho
      exact hobj (Option.some.inj ho)
    · rw [hS]
      exact Option.some_ne_none _
    · intro hund
      by_contra hne
      exact hu ⟨hund, hne⟩

/-- The key holds a plain object, and the merge goes on there. -/
theorem mergeKey_child (hv₀ : h₀.Valid) (ih : Merges R h₀ r P n) (hs : Site h₀ r P h p l s)
    (hx : h₀.own s k = some (.ref x)) (hxp : h₀.isArray x = false) (hn : NestedWithin h₀ n x)
    (hm : h.own l k = some (.ref m)) (hmp : h.isArray m = false)
    (hc : NoClash R (h.view (.ref m)) (h₀.view (.ref x))) :
    ∃ h', mergeKey R (mergeTwoMut R n) (.ref l) s h k = .ok h' ∧ Site h₀ r P h' p l s ∧
      Step r (p ++ [k]) h h' ∧ ∀ t, h'.view (.ref l) (k :: t) =
        merge (h.view (.ref m)) (h₀.view (.ref x)) t := by
  obtain ⟨h', hrun, hs', hst, hview⟩ := ih h _ m x (hs.child hv₀ hm hmp hx hxp) hn hc
  have hsite := hs.step hs'.good hst
  refine ⟨h', ?_, hsite, hst, fun t => ?_⟩
  · rw [mergeKey_kept hs hv₀ hx hxp (get_own hm) rfl, hrun]
  · rw [← hview, ← hsite.view, ← hs'.view, List.append_assoc, List.singleton_append]

/-- The new object under the key, and the site of the merge into it. -/
theorem made_child (hv₀ : h₀.Valid) (hs : Site h₀ r P h p l s) (hx : h₀.own s k = some (.ref x))
    (hxp : h₀.isArray x = false) :
    Site h₀ r P (h.alloc.put l k (.ref h.size)) (p ++ [k]) h.size x ∧
      Step r (p ++ [k]) h (h.alloc.put l k (.ref h.size)) ∧
      (∀ j t, (h.alloc.put l k (.ref h.size)).view (.ref h.size) (j :: t) = none) ∧
      ∀ t, merge ((h.alloc.put l k (.ref h.size)).view (.ref h.size)) (h₀.view (.ref x)) t =
        h₀.view (.ref s) (k :: t) := by
  obtain ⟨hg, hmade⟩ := hs.made hv₀ k
  have hown : (h.alloc.put l k (.ref h.size)).own l k = some (.ref h.size) :=
    own_put_self (hs.lt.trans (by simp)) k _
  have hempty : (h.alloc.put l k (.ref h.size)).obj h.size = Obj.empty := by
    rw [obj_put_of_ne _ _ (Nat.ne_of_gt hs.lt), obj_alloc, obj_of_size_le (Nat.le_refl _)]
  have hnil (j : κ) (t : List κ) :
      (h.alloc.put l k (.ref h.size)).view (.ref h.size) (j :: t) = none :=
    view_cons_of_none (congrArg (·.own j) hempty) t
  have harr : (h.alloc.put l k (.ref h.size)).isArray h.size = false := congrArg Obj.isArray hempty
  refine ⟨(hs.step hg hmade).child hv₀ hown harr hx hxp, hmade, hnil, fun t => ?_⟩
  rw [view_cons hx]
  refine merge_empty hnil ?_ (fun j u hj => view_of_nothing (p := [j]) hj u) t
  rw [view_nil, shape_eq_object.mpr ⟨_, rfl, harr⟩, Site.source_object hxp]

/-- The key gets a new object, and the merge fills it. -/
theorem mergeKey_made (hv₀ : h₀.Valid) (ih : Merges R h₀ r P n) (hs : Site h₀ r P h p l s)
    (hx : h₀.own s k = some (.ref x)) (hxp : h₀.isArray x = false) (hn : NestedWithin h₀ n x)
    (hget : get R h (.ref l) k = .ok v) (hv : isNullish v = true)
    (hc : NoClash R (fun _ => none) (h₀.view (.ref x))) :
    ∃ h', mergeKey R (mergeTwoMut R n) (.ref l) s h k = .ok h' ∧ Site h₀ r P h' p l s ∧
      Step r (p ++ [k]) h h' ∧ ∀ t, h'.view (.ref l) (k :: t) = h₀.view (.ref s) (k :: t) := by
  obtain ⟨hchild, hmade, hnil, hfill⟩ := made_child hv₀ hs hx hxp
  obtain ⟨h', hrun, hs', hst, hview⟩ := ih _ _ _ x hchild hn
    ((noClash_congr fun j t => (hnil j t).symm).mp hc)
  have hsite := hs.step hs'.good (hmade.trans hst)
  refine ⟨h', ?_, hsite, hmade.trans hst, fun t => ?_⟩
  · rw [mergeKey_new hs hv₀ hx hxp hget hv, hrun]
  · rw [← hfill, ← hview, ← hsite.view, ← hs'.view, List.append_assoc, List.singleton_append]

theorem mergeKey_good (hv₀ : h₀.Valid) (ih : Merges R h₀ r P n) (hs : Site h₀ r P h p l s)
    (hn : NestedWithin h₀ (n + 1) s) (hk : h₀.own s k = some v)
    (hc : NoClashAt R (h.view (.ref l)) (h₀.view (.ref s)) k) :
    ∃ h', mergeKey R (mergeTwoMut R n) (.ref l) s h k = .ok h' ∧ Site h₀ r P h' p l s ∧
      Step r (p ++ [k]) h h' ∧ ∀ t, h'.view (.ref l) (k :: t) =
        merge (h.view (.ref l)) (h₀.view (.ref s)) (k :: t) := by
  by_cases hplain : ∃ x, v = .ref x ∧ h₀.isArray x = false
  · obtain ⟨x, rfl, hx⟩ := hplain
    have hS : h₀.view (.ref s) [k] = some .object := view_object_of_own hk hx
    have hsub : View.sub (h₀.view (.ref s)) k = h₀.view (.ref x) := funext (view_cons hk)
    have hclash := hc.2 hS
    rw [hsub] at hclash
    obtain ⟨m, hm, hmp⟩ | ⟨hT, hnone, old, hget, hnull⟩ := holds_cases hs (hS ▸ hc.1)
    · have hleft : View.sub (h.view (.ref l)) k = h.view (.ref m) := funext (view_cons hm)
      have hT : h.view (.ref l) [k] = some .object := view_object_of_own hm hmp
      rw [hleft] at hclash
      obtain ⟨h', hrun, hs', hst, hview⟩ :=
        mergeKey_child hv₀ ih hs hk hx (hn k x hk hx) hm hmp hclash
      refine ⟨h', hrun, hs', hst, fun t => ?_⟩
      rw [merge_both hT hS, hleft, hsub, hview]
    · obtain ⟨h', hrun, hs', hst, hview⟩ := mergeKey_made hv₀ ih hs hk hx (hn k x hk hx) hget hnull
        ((noClash_congr hnone).mp hclash)
      exact ⟨h', hrun, hs', hst, fun t => (hview t).trans (merge_object_right hS hT t).symm⟩
  · have hv : ∀ x, v = .ref x → h₀.isArray x = true := by
      rintro x rfl
      by_contra hx
      exact hplain ⟨x, rfl, by simpa using hx⟩
    obtain ⟨hg, hst, hview⟩ := assign_good hv₀ hs hk hv hc.1
    refine ⟨_, mergeKey_assign hs hk (fun x hx => ?_) _, hs.step hg hst, hst, hview⟩
    exact (hs.good.isArray_input (hv₀ s k x (hx ▸ hk))).trans (hv x hx)

theorem foldlM_good (hv₀ : h₀.Valid) (ih : Merges R h₀ r P n) (hn : NestedWithin h₀ (n + 1) s)
    (keys : List κ) (hnodup : keys.Nodup) (hkeys : ∀ k ∈ keys, k ∈ (h₀.obj s).keys) :
    ∀ h, Site h₀ r P h p l s →
      (∀ k ∈ keys, NoClashAt R (h.view (.ref l)) (h₀.view (.ref s)) k) →
      ∃ h', keys.foldlM (mergeKey R (mergeTwoMut R n) (.ref l) s) h = .ok h' ∧
        Site h₀ r P h' p l s ∧ Step r p h h' ∧
        (∀ k ∈ keys, ∀ t, h'.view (.ref l) (k :: t) =
          merge (h.view (.ref l)) (h₀.view (.ref s)) (k :: t)) ∧
        ∀ k ∉ keys, ∀ t, h'.view (.ref l) (k :: t) = h.view (.ref l) (k :: t) := by
  induction keys with
  | nil =>
    intro h hs _
    exact ⟨h, rfl, hs, Step.refl r p h, by simp, fun _ _ _ => rfl⟩
  | cons j keys ihk =>
    intro h hs hc
    obtain ⟨hj, hnodup⟩ := List.nodup_cons.mp hnodup
    obtain ⟨v, hv⟩ := Obj.exists_own_of_mem (hkeys j List.mem_cons_self)
    obtain ⟨h₁, hrun, hs₁, hst, hview⟩ :=
      mergeKey_good hv₀ ih hs hn hv (hc j List.mem_cons_self)
    -- the other keys are as before
    have hother {k : κ} (hk : k ≠ j) := hs.other hs₁ hst hk
    have hne {k : κ} (hk : k ∈ keys) : k ≠ j := fun he => hj (he ▸ hk)
    obtain ⟨h', hrun', hs', hst', hin, hout⟩ := ihk hnodup
      (fun k hk => hkeys k (List.mem_cons_of_mem j hk)) h₁ hs₁
      fun k hk => (noClashAt_congr (hother (hne hk))).mpr (hc k (List.mem_cons_of_mem j hk))
    refine ⟨h', ?_, hs', (hst.mono (List.prefix_append p [j])).trans hst', ?_, ?_⟩
    · rw [List.foldlM_cons, hrun]
      exact hrun'
    · intro k hk t
      obtain rfl | hk := List.mem_cons.mp hk
      · rw [hout k hj, hview]
      · rw [hin k hk, merge_congr (hother (hne hk))]
    · intro k hk t
      obtain ⟨hkj, hk⟩ := not_or.mp (mt List.mem_cons.mpr hk)
      rw [hout k hk, hother hkj]

/-- Without a clash the merge in place gives the promised merge, and changes nothing beside its
target. -/
theorem mergeTwoMut_good (hv₀ : h₀.Valid) (n : ℕ) : Merges R h₀ r P n := by
  induction n with
  | zero =>
    intro h p l s hs hn
    exact hn.elim
  | succ n ih =>
    intro h p l s hs hn hc
    have hkeys : (h.obj s).keys = (h₀.obj s).keys := by rw [hs.good.frozen s hs.source_lt]
    have hclash := (noClash_iff (Site.source_object hs.source_plain)).mp hc
    obtain ⟨h', hrun, hs', hst, hin, hout⟩ := foldlM_good hv₀ ih hn (h₀.obj s).keys
      (h₀.obj s).nodup (fun _ hk => hk) h hs fun k _ => hclash k
    refine ⟨h', ?_, hs', hst, funext fun t => ?_⟩
    · rw [mergeTwoMut, hkeys]
      exact hrun
    · cases t with
      | nil =>
        rw [merge_nil, view_nil, view_nil, shape_eq_object.mpr ⟨l, rfl, hs'.isArray⟩,
          shape_eq_object.mpr ⟨l, rfl, hs.isArray⟩]
      | cons k t =>
        by_cases hk : k ∈ (h₀.obj s).keys
        · exact hin k hk t
        · have hS : h₀.view (.ref s) [k] = none := by
            rw [view_singleton, own, Obj.own_of_notMem hk, Option.map_none]
          rw [merge_left hS, hout k hk]

end Thcdb.Frontend.DeepMerge
