import Thcdb.Fallible.Except
import Thcdb.Frontend.DeepMerge

namespace Thcdb.Frontend.DeepMerge

open Objects Heap
open Fallible (bind_eq_ok foldlM_keeps foldlM_mono)

variable {κ : Type}

/-- Only objects of the set have changed, and they refer to the set as before. -/
structure Within (Z : Set ℕ) (h h' : Heap κ Leaf) : Prop where
  outside : ∀ l ∉ Z, h'.obj l = h.obj l
  closed : h'.Closed Z
  isArray : ∀ l, h'.isArray l = h.isArray l
  size_le : h.size ≤ h'.size

variable {R : Realm κ} {Z : Set ℕ} {h h' h'' : Heap κ Leaf} {l s n : ℕ} {k : κ} {target v : Val}

namespace Within

theorem refl (hZ : h.Closed Z) : Within Z h h :=
  ⟨fun _ _ => rfl, hZ, fun _ => rfl, Nat.le_refl _⟩

theorem trans (hw : Within Z h h') (hw' : Within Z h' h'') : Within Z h h'' :=
  ⟨fun l hl => (hw'.outside l hl).trans (hw.outside l hl), hw'.closed,
    fun l => (hw'.isArray l).trans (hw.isArray l), hw.size_le.trans hw'.size_le⟩

theorem alloc (hZ : h.Closed Z) : Within Z h h.alloc where
  outside l _ := obj_alloc h l
  closed l hl k m hm := hZ l hl k m (own_alloc h l k ▸ hm)
  isArray l := isArray_alloc h l
  size_le := by simp

theorem write {o : Obj κ Leaf} (hZ : h.Closed Z) (hl : l ∈ Z) (ho : o.isArray = h.isArray l)
    (hown : ∀ k m, o.own k = some (.ref m) → m ∈ Z) : Within Z h (h.write l o) where
  outside m hm := obj_write_of_ne o fun he => hm (he ▸ hl)
  closed m hm k x hx := by
    obtain hlt | hlt := Nat.lt_or_ge l h.size
    · rw [own, obj_write hlt] at hx
      split_ifs at hx with hml
      · exact hown k x hx
      · exact hZ m hm k x hx
    · rw [write_of_size_le hlt] at hx
      exact hZ m hm k x hx
  isArray := isArray_write ho
  size_le := Nat.le_of_eq (size_write h l o).symm

end Within

theorem get_in (hZ : h.Closed Z) (ht : target.In Z) (hget : get R h target k = .ok v) :
    v.In Z := by
  cases target with
  | leaf a =>
    simp only [get] at hget
    split_ifs at hget
    exact Except.ok.inj hget ▸ trivial
  | ref l =>
    simp only [get] at hget
    cases ho : h.own l k with
    | none =>
      simp only [ho] at hget
      exact Except.ok.inj hget ▸ trivial
    | some w =>
      simp only [ho] at hget
      obtain rfl := Except.ok.inj hget
      cases w with
      | leaf a => trivial
      | ref m => exact hZ l ht k m ho

variable [DecidableEq κ]

/-- A property that is set leads into the set when the value and the other properties do. -/
theorem own_set_in {o : Obj κ Leaf} (hown : ∀ k m, o.own k = some (.ref m) → m ∈ Z) (hv : v.In Z)
    {j : κ} {m : ℕ} (hm : (o.set k v).own j = some (.ref m)) : m ∈ Z := by
  rw [Obj.own_set] at hm
  split_ifs at hm
  · obtain rfl := Option.some.inj hm
    exact hv
  · exact hown j m hm

theorem arrayPut_in {o : Obj κ Leaf} {effect : κ → Option (Option Leaf)}
    (hown : ∀ k m, o.own k = some (.ref m) → m ∈ Z) (hv : v.In Z) {j : κ} {m : ℕ}
    (hm : (arrayPut o k v effect).own j = some (.ref m)) : m ∈ Z := by
  change arrayOwn (o.set k v) effect j = some (.ref m) at hm
  unfold arrayOwn at hm
  split at hm
  next a =>
    split_ifs at hm
    obtain ⟨b, -, hb⟩ := Option.map_eq_some_iff.mp hm
    cases hb
  next => exact own_set_in hown hv hm

theorem set_within (hZ : h.Closed Z) (ht : target.In Z) (hv : v.In Z)
    (hset : set R h target k v = .ok h') : Within Z h h' := by
  cases target with
  | leaf a => cases a <;> cases hset
  | ref l =>
    simp only [set] at hset
    split_ifs at hset
    · obtain ⟨effect, -, hrun⟩ := bind_eq_ok.mp hset
      obtain rfl := Except.ok.inj hrun
      exact Within.write hZ ht rfl fun j m => arrayPut_in (fun k m => hZ l ht k m) hv
    · obtain rfl := Except.ok.inj hset
      exact Within.write hZ ht rfl fun j m => own_set_in (fun k m => hZ l ht k m) hv

theorem setDefault_within (hZ : h.Closed Z) (hnew : ∀ l, h.size ≤ l → l ∈ Z) (ht : target.In Z)
    (hset : setDefault R h target k = .ok h') : Within Z h h' := by
  obtain ⟨old, -, hset⟩ := bind_eq_ok.mp hset
  split_ifs at hset
  · have halloc := Within.alloc hZ
    exact halloc.trans (set_within (v := .ref h.size) halloc.closed ht
      (hnew h.size (Nat.le_refl _)) hset)
  · obtain rfl := Except.ok.inj hset
    exact Within.refl hZ

theorem mergeKey_within {f : Heap κ Leaf → Val → ℕ → Except Failure (Heap κ Leaf)}
    (hf : ∀ {h target s h'}, h.Closed Z → (∀ l, h.size ≤ l → l ∈ Z) → target.In Z → s ∈ Z →
      f h target s = .ok h' → Within Z h h')
    (hZ : h.Closed Z) (hnew : ∀ l, h.size ≤ l → l ∈ Z) (ht : target.In Z) (hs : s ∈ Z)
    (hrun : mergeKey R f target s h k = .ok h') : Within Z h h' := by
  unfold mergeKey at hrun
  split at hrun
  next => exact Except.ok.inj hrun ▸ Within.refl hZ
  next a ho => exact set_within (v := .leaf a) hZ ht trivial hrun
  next x ho =>
    have hx : x ∈ Z := hZ s hs k x ho
    split_ifs at hrun
    · obtain ⟨h₁, hdef, hrun⟩ := bind_eq_ok.mp hrun
      obtain ⟨next, hget, hrun⟩ := bind_eq_ok.mp hrun
      have hw := setDefault_within hZ hnew ht hdef
      exact hw.trans (hf hw.closed (fun l hl => hnew l (hw.size_le.trans hl))
        (get_in hw.closed ht hget) hx hrun)
    · exact set_within (v := .ref x) hZ ht hx hrun

/-- A merge whose target and source lie in a closed set stays in the set. -/
theorem mergeTwoMut_within (n : ℕ) : ∀ {h target s h'}, h.Closed Z → (∀ l, h.size ≤ l → l ∈ Z) →
    target.In Z → s ∈ Z → mergeTwoMut R n h target s = .ok h' → Within Z h h' := by
  induction n with
  | zero =>
    intro h target s h' _ _ _ _ hrun
    cases hrun
  | succ n ih =>
    intro h target s h' hZ hnew ht hs hrun
    refine foldlM_keeps (P := Within Z h) (fun h₁ k h₂ _ hw hkey => ?_) (Within.refl hZ) hrun
    exact hw.trans (mergeKey_within ih hw.closed (fun l hl => hnew l (hw.size_le.trans hl)) ht hs
      hkey)

theorem mergeKey_mono {f g : Heap κ Leaf → Val → ℕ → Except Failure (Heap κ Leaf)}
    (hfg : ∀ h target s h', f h target s = .ok h' → g h target s = .ok h')
    (hrun : mergeKey R f target s h k = .ok h') : mergeKey R g target s h k = .ok h' := by
  unfold mergeKey at hrun ⊢
  split at hrun
  next => exact hrun
  next => exact hrun
  next =>
    split_ifs at hrun ⊢
    · obtain ⟨h₁, hdef, hrun⟩ := bind_eq_ok.mp hrun
      obtain ⟨next, hget, hrun⟩ := bind_eq_ok.mp hrun
      exact bind_eq_ok.mpr ⟨h₁, hdef, bind_eq_ok.mpr ⟨next, hget, hfg _ _ _ _ hrun⟩⟩
    · exact hrun

theorem mergeTwoMut_succ (n : ℕ) : ∀ h target s h', mergeTwoMut R n h target s = .ok h' →
    mergeTwoMut R (n + 1) h target s = .ok h' := by
  induction n with
  | zero =>
    intro h target s h' hrun
    cases hrun
  | succ n ih =>
    intro h target s h' hrun
    exact foldlM_mono (fun h₁ k h₂ => mergeKey_mono ih) hrun

/-- A merge that has ended gives the same with more fuel. -/
theorem mergeTwoMut_mono {n n' : ℕ} (hle : n ≤ n') (hrun : mergeTwoMut R n h target s = .ok h') :
    mergeTwoMut R n' h target s = .ok h' := by
  induction hle with
  | refl => exact hrun
  | step _ ih => exact mergeTwoMut_succ _ _ _ _ _ ih

end Thcdb.Frontend.DeepMerge
