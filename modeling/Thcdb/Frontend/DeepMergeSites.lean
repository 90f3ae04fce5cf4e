import Mathlib.Data.List.Induction
import Thcdb.Frontend.PlainMerge

namespace Thcdb.Frontend.DeepMerge

open Objects Heap

variable {κ : Type}

/-- The heap of a merge into `r` that began with `h₀`: the inputs are as they were, what was made
since refers to inputs only where these are arrays, and a plain object on a path of `P`, where the
sources have plain objects, is found on that path only. -/
structure Good (h₀ : Heap κ Leaf) (r : ℕ) (P : Set (List κ)) (h : Heap κ Leaf) : Prop where
  valid : h.Valid
  size_le : h₀.size ≤ h.size
  frozen : ∀ l < h₀.size, h.obj l = h₀.obj l
  made : ∀ l, h₀.size ≤ l → ∀ k m, h.own l k = some (.ref m) → h₀.size ≤ m ∨ h.isArray m = true
  root_le : h₀.size ≤ r
  root_lt : r < h.size
  sole : ∀ p ∈ P, Plain (h.view (.ref r)) p → h.Sole r p

variable {h₀ h h' : Heap κ Leaf} {r l m s : ℕ} {k : κ} {p q : List κ} {P : Set (List κ)} {w : Val}

theorem inputs_closed (hv₀ : h₀.Valid) : h₀.Closed {l | l < h₀.size} :=
  fun l _ k m hm => hv₀ l k m hm

namespace Good

theorem inputs_closed' (hg : Good h₀ r P h) (hv₀ : h₀.Valid) : h.Closed {l | l < h₀.size} := by
  intro l hl k m hm
  rw [own, hg.frozen l hl] at hm
  exact hv₀ l k m hm

theorem own_input (hg : Good h₀ r P h) (hs : s < h₀.size) (k : κ) : h.own s k = h₀.own s k := by
  rw [own, own, hg.frozen s hs]

theorem isArray_input (hg : Good h₀ r P h) (hs : s < h₀.size) : h.isArray s = h₀.isArray s := by
  rw [isArray, isArray, hg.frozen s hs]

theorem walk_lt (hg : Good h₀ r P h) (hw : h.walk (.ref r) p = some (.ref m)) : m < h.size :=
  walk_lt_size hg.valid hg.root_lt hw

/-- The plain objects of the result were made. -/
theorem le_of_plain (hg : Good h₀ r P h) (hp : Plain (h.view (.ref r)) p)
    (hw : h.walk (.ref r) p = some (.ref m)) : h₀.size ≤ m := by
  induction p using List.reverseRecOn generalizing m with
  | nil =>
    exact walk_ref_inj (walk_nil h _) hw ▸ hg.root_le
  | append_singleton p k ih =>
    obtain ⟨hp, hobj⟩ := plain_snoc.mp hp
    obtain ⟨l, x, hl, hx, hwx⟩ := walk_of_append hw
    obtain ⟨m', hm', harr⟩ := view_eq_object.mp hobj
    obtain rfl : m' = m := walk_ref_inj hm' hw
    rw [walk_nil] at hwx
    obtain rfl := Option.some.inj hwx
    obtain hle | hm := hg.made l (ih hp hl) k m' hx
    · exact hle
    · rw [harr] at hm
      cases hm

theorem alloc (hg : Good h₀ r P h) : Good h₀ r P h.alloc where
  valid := hg.valid.alloc
  size_le := hg.size_le.trans (by simp)
  frozen l hl := (obj_alloc h l).trans (hg.frozen l hl)
  made l hl k m hm := by
    rw [own_alloc] at hm
    rw [isArray_alloc]
    exact hg.made l hl k m hm
  root_le := hg.root_le
  root_lt := hg.root_lt.trans (by simp)
  sole p hp hpl m hm q hq := by
    have hview : h.alloc.view (.ref r) = h.view (.ref r) := funext (view_alloc h _)
    rw [walk_alloc] at hm hq
    exact hg.sole p hp (hview ▸ hpl) m hm q hq

end Good

/-- What is written: a leaf, an array of the inputs, or a new object that nothing refers to. -/
def Writable (h₀ h : Heap κ Leaf) (r : ℕ) : Val → Prop
  | .leaf _ => True
  | .ref m => m < h₀.size ∧ h.isArray m = true ∨
      (h₀.size ≤ m ∧ m < h.size ∧ h.obj m = Obj.empty) ∧ ∀ q, h.walk (.ref r) q ≠ some (.ref m)

theorem Writable.lt (hg : Good h₀ r P h) (hw : Writable h₀ h r (.ref m)) : m < h.size :=
  hw.elim (fun hm => hm.1.trans_le hg.size_le) (fun hm => hm.1.2.1)

theorem get_own {R : Realm κ} {v : Val} (ho : h.own l k = some v) : get R h (.ref l) k = .ok v := by
  rw [get, ho]

theorem get_inherited {R : Realm κ} (hl : h.isArray l = false) (ho : h.own l k = none) :
    get R h (.ref l) k = .ok (.leaf (R.object k)) := by
  rw [get, ho, hl]
  rfl

/-- What is read from a plain object is a leaf, or what the object holds itself. -/
theorem get_plain_in {R : Realm κ} {Z : Set ℕ} {v : Val} (hl : h.isArray l = false)
    (hcell : ∀ m, h.own l k = some (.ref m) → m ∈ Z) (hget : get R h (.ref l) k = .ok v) :
    v.In Z := by
  cases ho : h.own l k with
  | none =>
    rw [get_inherited hl ho] at hget
    exact Except.ok.inj hget ▸ trivial
  | some u =>
    obtain rfl := Except.ok.inj ((get_own ho).symm.trans hget)
    cases u with
    | leaf a => trivial
    | ref m => exact hcell m ho

/-- Only what lies at or behind the path has changed. -/
structure Step (r : ℕ) (p : List κ) (h h' : Heap κ Leaf) : Prop where
  off : ∀ q, ¬ p <+: q → h'.walk (.ref r) q = h.walk (.ref r) q
  isArray : ∀ m, h'.isArray m = h.isArray m

namespace Step

theorem refl (r : ℕ) (p : List κ) (h : Heap κ Leaf) : Step r p h h :=
  ⟨fun _ _ => rfl, fun _ => rfl⟩

theorem trans {h'' : Heap κ Leaf} (hs : Step r p h h') (hs' : Step r p h' h'') : Step r p h h'' :=
  ⟨fun q hq => (hs'.off q hq).trans (hs.off q hq), fun m => (hs'.isArray m).trans (hs.isArray m)⟩

theorem mono (hs : Step r q h h') (hp : p <+: q) : Step r p h h' :=
  ⟨fun t ht => hs.off t fun hq => ht (hp.trans hq), hs.isArray⟩

theorem view (hs : Step r p h h') (hq : ¬ p <+: q) :
    h'.view (.ref r) q = h.view (.ref r) q :=
  view_of_walk hs.isArray (hs.off q hq)

end Step

/-- A plain object of the result and the plain object of a source that is merged into it. -/
structure Site (h₀ : Heap κ Leaf) (r : ℕ) (P : Set (List κ)) (h : Heap κ Leaf) (p : List κ)
    (l s : ℕ) : Prop where
  good : Good h₀ r P h
  path : h.walk (.ref r) p = some (.ref l)
  plain : Plain (h.view (.ref r)) p
  source_lt : s < h₀.size
  source_plain : h₀.isArray s = false
  touched : ∀ q, Plain (h₀.view (.ref s)) q → p ++ q ∈ P

namespace Site

theorem source_object (hs : h₀.isArray s = false) : h₀.view (.ref s) [] = some .object := by
  rw [view_nil, shape_eq_object.mpr ⟨s, rfl, hs⟩]

theorem mem (hs : Site h₀ r P h p l s) : p ∈ P := by
  have := hs.touched [] (plain_nil.mpr (source_object hs.source_plain))
  rwa [List.append_nil] at this

theorem isArray (hs : Site h₀ r P h p l s) : h.isArray l = false := by
  obtain ⟨m, hm, harr⟩ := view_eq_object.mp hs.plain.apply
  obtain rfl := walk_ref_inj hm hs.path
  exact harr

theorem view (hs : Site h₀ r P h p l s) (q : List κ) :
    h.view (.ref r) (p ++ q) = h.view (.ref l) q :=
  view_append_of_walk hs.path q

theorem sole (hs : Site h₀ r P h p l s) : h.Sole r p := hs.good.sole p hs.mem hs.plain

theorem lt (hs : Site h₀ r P h p l s) : l < h.size := hs.good.walk_lt hs.path

/-- The site stays where it is when something behind one of its keys changes. -/
theorem step (hs : Site h₀ r P h p l s) (hg : Good h₀ r P h') (hst : Step r (p ++ [k]) h h') :
    Site h₀ r P h' p l s where
  good := hg
  path := (hst.off p (not_isPrefix_snoc p k)).trans hs.path
  plain q hq := (hst.view fun hk => not_isPrefix_snoc p k (hk.trans hq)).trans (hs.plain q hq)
  source_lt := hs.source_lt
  source_plain := hs.source_plain
  touched := hs.touched

/-- What lies behind one key leaves the others alone. -/
theorem other (hs : Site h₀ r P h p l s) (hs' : Site h₀ r P h' p l s)
    (hst : Step r (p ++ [k]) h h') {j : κ} (hj : j ≠ k) (t : List κ) :
    h'.view (.ref l) (j :: t) = h.view (.ref l) (j :: t) := by
  rw [← hs'.view, ← hs.view]
  refine hst.view fun hpre => hj ?_
  exact (List.cons_prefix_cons.mp ((List.prefix_append_right_inj p).mp hpre)).1.symm

/-- The site behind a key under which both sides have plain objects. -/
theorem child (hs : Site h₀ r P h p l s) (hv₀ : h₀.Valid) {m x : ℕ} (hm : h.own l k = some (.ref m))
    (hmp : h.isArray m = false) (hx : h₀.own s k = some (.ref x)) (hxp : h₀.isArray x = false) :
    Site h₀ r P h (p ++ [k]) m x where
  good := hs.good
  path := by
    rw [walk_append_of_walk hs.path, walk_ref_cons, hm]
    rfl
  plain := by
    refine plain_snoc.mpr ⟨hs.plain, ?_⟩
    rw [hs.view, view_object_of_own hm hmp]
  source_lt := hv₀ s k x hx
  source_plain := hxp
  touched q hq := by
    rw [List.append_assoc]
    refine hs.touched (k :: q) (plain_cons.mpr ⟨source_object hs.source_plain, ?_⟩)
    intro t ht
    exact (view_cons hx t).trans (hq t ht)

theorem alloc (hs : Site h₀ r P h p l s) : Site h₀ r P h.alloc p l s where
  good := hs.good.alloc
  path := (walk_alloc h _ p).trans hs.path
  plain q hq := (view_alloc h _ q).trans (hs.plain q hq)
  source_lt := hs.source_lt
  source_plain := hs.source_plain
  touched := hs.touched

end Site

variable [DecidableEq κ] {R : Realm κ} {v : Val}

theorem set_plain (hl : h.isArray l = false) (k : κ) (v : Val) :
    set R h (.ref l) k v = .ok (h.put l k v) := by
  rw [set, hl]
  rfl

theorem setDefault_kept {target : Val} (hget : get R h target k = .ok v)
    (hv : isNullish v = false) : setDefault R h target k = .ok h := by
  rw [setDefault, hget]
  simp only [Except.bind, bind, hv, Bool.false_eq_true, if_false]

theorem setDefault_made (hl : h.isArray l = false) (hget : get R h (.ref l) k = .ok v)
    (hv : isNullish v = true) :
    setDefault R h (.ref l) k = .ok (h.alloc.put l k (.ref h.size)) := by
  rw [setDefault, hget]
  simp only [Except.bind, bind, hv, if_true]
  exact set_plain (by rwa [isArray_alloc]) k _

/-- Paths from what is written end in the inputs, or at the new object at once. -/
theorem Writable.walk_put (hv₀ : h₀.Valid) (hg : Good h₀ r P h) (hl : h₀.size ≤ l)
    (hml : w ≠ .ref l) (hw : Writable h₀ h r w)
    (hm : (h.put l k w).walk w q = some (.ref m)) :
    m < h₀.size ∨ (w = .ref m ∧ q = [] ∧ ∀ t, h.walk (.ref r) t ≠ some (.ref m)) := by
  cases w with
  | leaf a =>
    cases q with
    | nil => cases hm
    | cons j q => cases hm
  | ref x =>
    obtain ⟨hx, -⟩ | ⟨⟨-, -, hobj⟩, hnew⟩ := hw
    · refine .inl (walk_in (Z := {l | l < h₀.size}) (fun i hi j n hn => ?_) (v := .ref x) hx hm)
      have hne : i ≠ l := fun he => absurd (he ▸ hi : l < h₀.size) (Nat.not_lt.mpr hl)
      rw [own, obj_put_of_ne k _ hne] at hn
      exact hg.inputs_closed' hv₀ i hi j n hn
    · have hne : x ≠ l := fun he => hml (congrArg _ he)
      obtain ⟨hq, hx⟩ := walk_of_empty ((obj_put_of_ne k _ hne).trans hobj) hm
      obtain rfl := Value.ref.inj hx
      exact .inr ⟨rfl, hq, hnew⟩

/-- Writing to a plain object on its only path keeps the invariant. -/
theorem Good.put (hv₀ : h₀.Valid) (hg : Good h₀ r P h) (hp : p ∈ P)
    (hpl : Plain (h.view (.ref r)) p) (hl : h.walk (.ref r) p = some (.ref l))
    (hw : Writable h₀ h r w) (k : κ) : Good h₀ r P (h.put l k w) := by
  have hlt : l < h.size := hg.walk_lt hl
  have hle : h₀.size ≤ l := hg.le_of_plain hpl hl
  have hsole : h.Sole r p := hg.sole p hp hpl
  have hml : w ≠ .ref l := by
    rintro rfl
    obtain ⟨hm, -⟩ | ⟨-, hm⟩ := hw
    · omega
    · exact hm p hl
  refine ⟨hg.valid.put hlt ?_, ?_, ?_, ?_, hg.root_le, ?_, ?_⟩
  · rintro m rfl
    exact hw.lt hg
  · rw [size_put]
    exact hg.size_le
  · intro m hm
    rw [obj_put_of_ne k w (by omega)]
    exact hg.frozen m hm
  · intro x hx j m hm
    rw [own_put hlt] at hm
    rw [isArray_put]
    split_ifs at hm with hkey
    · obtain rfl := Option.some.inj hm
      exact hw.elim (fun hm => .inr hm.2) (fun hm => .inl hm.1.1)
    · exact hg.made x hx j m hm
  · rw [size_put]
    exact hg.root_lt
  · intro q hq hqpl
    by_cases hon : p ++ [k] <+: q
    · obtain ⟨t, rfl⟩ := hon
      obtain ⟨x, hx, harr⟩ := view_eq_object.mp (hqpl (p ++ [k]) (List.prefix_append ..))
      rw [walk_put_on hlt hl hsole, walk_nil] at hx
      obtain rfl := Option.some.inj hx
      rw [isArray_put] at harr
      obtain ⟨-, harr'⟩ | ⟨⟨-, -, hobj⟩, hnew⟩ := id hw
      · rw [harr'] at harr
        cases harr
      -- a plain value that is written is the new object, and its place is the only one
      have hempty := (obj_put_of_ne k (.ref x) fun he => hml (congrArg _ he)).trans hobj
      intro m hm u hu
      rw [List.append_assoc, List.singleton_append, walk_put_on hlt hl hsole] at hm
      obtain ⟨rfl, hx⟩ := walk_of_empty hempty hm
      obtain rfl := Value.ref.inj hx
      by_cases hon : p ++ [k] <+: u
      · obtain ⟨t, rfl⟩ := hon
        rw [List.append_assoc, List.singleton_append, walk_put_on hlt hl hsole] at hu
        rw [(walk_of_empty hempty hu).1]
      · rw [walk_put_off hlt hl hsole hon] at hu
        exact absurd hu (hnew u)
    · have hqpl' : Plain (h.view (.ref r)) q := fun t ht =>
        (view_put_off hlt hl hsole fun hon' => hon (hon'.trans ht)).symm.trans (hqpl t ht)
      refine sole_put hlt hl hsole hon (hg.sole q hq hqpl') fun m hm t ht => ?_
      obtain hm' | ⟨-, -, hnew⟩ := hw.walk_put hv₀ hg hle hml ht
      · exact absurd (hg.le_of_plain hqpl' hm) (Nat.not_le.mpr hm')
      · exact hnew q hm

namespace Site

theorem put (hs : Site h₀ r P h p l s) (hv₀ : h₀.Valid) (hw : Writable h₀ h r w) (k : κ) :
    Good h₀ r P (h.put l k w) ∧ Step r (p ++ [k]) h (h.put l k w) :=
  ⟨hs.good.put hv₀ hs.mem hs.plain hs.path hw k,
    fun _ hq => walk_put_off hs.lt hs.path hs.sole hq, fun m => isArray_put h l k w m⟩

/-- `target[key] = {}` -/
theorem made (hs : Site h₀ r P h p l s) (hv₀ : h₀.Valid) (k : κ) :
    Good h₀ r P (h.alloc.put l k (.ref h.size)) ∧
      Step r (p ++ [k]) h (h.alloc.put l k (.ref h.size)) := by
  have hle := hs.good.size_le
  have hnew : Writable h₀ h.alloc r (.ref h.size) := by
    refine .inr ⟨⟨hle, by simp, ?_⟩, fun q hq => ?_⟩
    · rw [obj_alloc, obj_of_size_le (Nat.le_refl _)]
    · rw [walk_alloc] at hq
      exact Nat.lt_irrefl _ (hs.good.walk_lt hq)
  obtain ⟨hg, hst⟩ := hs.alloc.put hv₀ hnew k
  exact ⟨hg, fun q hq => (hst.off q hq).trans (walk_alloc h _ q),
    fun m => (hst.isArray m).trans (isArray_alloc h m)⟩

end Site

end Thcdb.Frontend.DeepMerge
