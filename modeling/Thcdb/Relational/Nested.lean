import Mathlib.Data.Int.CharZero
import Mathlib.Data.List.Basic
import Thcdb.Relational.Children

namespace Relational

variable {C I : Type*} {n : ℤ} {cs : List C} {parents : List (Row C)}

/-- Parents with the children of each, without identities. -/
def grouped (parents : List (Row C)) (children : List (Owned I)) : List (C × List I) :=
  parents.map fun r => (r.cols, (children.filter fun c => c.owner = r.id).map Owned.item)

theorem numbered_eq_mapIdx : numbered n cs = cs.mapIdx fun i c => ⟨n + i, c⟩ := by
  induction cs generalizing n with
  | nil => rfl
  | cons c cs ih =>
    rw [numbered, ih, List.mapIdx_cons]
    congr 1
    · simp
    · congr 1
      funext i c
      congr 1
      push_cast
      omega

theorem getElem?_numbered {i : ℕ} :
    (numbered n cs)[i]? = cs[i]?.map fun c => ⟨n + i, c⟩ := by
  rw [numbered_eq_mapIdx, List.getElem?_mapIdx]

theorem mem_numbered {i : ℕ} (h : i < cs.length) : n + i ∈ (numbered n cs).map Row.id := by
  refine List.mem_map.mpr ⟨⟨n + i, cs[i]⟩, List.mem_of_getElem? (i := i) ?_, rfl⟩
  rw [getElem?_numbered, List.getElem?_eq_getElem h]
  rfl

/-- As many rows stand before a position as it says. -/
theorem countP_numbered {k : ℕ} (h : k ≤ cs.length) :
    (numbered n cs).countP (fun r => r.id < n + k) = k := by
  induction cs generalizing n k with
  | nil => simpa [numbered, eq_comm] using h
  | cons c cs ih =>
    cases k with
    | zero =>
      rw [List.countP_eq_zero]
      intro r hr
      have hbounds := numbered_bounds hr
      simp only [decide_eq_true_eq]
      omega
    | succ k =>
      have hshift : n + ((k + 1 : ℕ) : ℤ) = n + 1 + k := by omega
      rw [numbered, hshift, List.countP_cons_of_pos, ih (Nat.le_of_succ_le_succ h)]
      simp only [decide_eq_true_eq]
      omega

theorem has_insertAll_position {t : Table C} {i : ℕ} (h : i < cs.length) :
    (t.insertAll cs).has (t.next + i) := by
  obtain ⟨r, hr, hid⟩ := List.mem_map.mp (mem_numbered (n := t.next) h)
  exact Table.has_iff.mpr ⟨r, List.mem_append_right _ hr, hid⟩

/-- Children that name their parent by its position. -/
theorem grouped_positions {items : List (ℕ × I)} :
    grouped (numbered n cs) (items.map fun p => ⟨n + p.1, p.2⟩) =
      cs.mapIdx fun i c => (c, (items.filter fun p => p.1 = i).map Prod.snd) := by
  rw [grouped, numbered_eq_mapIdx]
  apply List.ext_getElem
  · simp
  · intro i h₁ h₂
    simp [List.filter_map, Function.comp_def]

/-- Parents written anew, with their children: nothing changes but identities. -/
theorem grouped_rekey {children : List (Owned I)} (hnodup : (parents.map Row.id).Nodup) :
    grouped (numbered n (parents.map Row.cols))
        (children.map fun c => ⟨n + (parents.map Row.id).idxOf c.owner, c.item⟩) =
      grouped parents children := by
  have hitems : (children.map fun c : Owned I =>
        (⟨n + (parents.map Row.id).idxOf c.owner, c.item⟩ : Owned I)) =
      (children.map fun c => ((parents.map Row.id).idxOf c.owner, c.item)).map fun p =>
        ⟨n + p.1, p.2⟩ := by
    simp [Function.comp_def]
  rw [hitems, grouped_positions, grouped]
  apply List.ext_getElem
  · simp
  · intro i h₁ h₂
    have hi : i < parents.length := by simpa using h₂
    have howner : ∀ c : Owned I,
        (parents.map Row.id).idxOf c.owner = i ↔ c.owner = parents[i].id := by
      intro c
      have hi' : i < (parents.map Row.id).length := by simpa using hi
      constructor
      · intro h
        have hlt : (parents.map Row.id).idxOf c.owner < (parents.map Row.id).length := by omega
        have hget := List.getElem_idxOf hlt
        simpa [h] using hget.symm
      · intro h
        have hget := hnodup.idxOf_getElem i hi'
        rwa [List.getElem_map, ← h] at hget
    simp [List.filter_map, Function.comp_def, howner]

section Hang

variable {A F : Type*} {fs : List F} {lists : List (List A)} {r : Row C}

/-- The children of rows that were just inserted, list by list. -/
def hang (rows : List (Row C)) (lists : List (List A)) : List (Owned A) :=
  (rows.zip lists).flatMap fun p => p.2.map (Owned.mk p.1.id)

theorem hang_cons {l : List A} {rows : List (Row C)} :
    hang (r :: rows) (l :: lists) = l.map (Owned.mk r.id) ++ hang rows lists := by
  simp [hang]

theorem hang_owner {c : Owned A} (h : c ∈ hang (numbered n cs) lists) :
    n ≤ c.owner ∧ c.owner < n + cs.length := by
  obtain ⟨p, hp, hc⟩ := List.mem_flatMap.mp h
  obtain ⟨i, -, rfl⟩ := List.mem_map.mp hc
  exact numbered_bounds (List.of_mem_zip hp).1

/-- Each row gets its own list. -/
theorem items_hang {a : F → List A} {f : F → C} {t : Table (Owned A)}
    (hlt : ∀ c ∈ t.cols, c.owner < n) {i : ℕ} (hi : i < fs.length) :
    (t.insertAll (hang (numbered n (fs.map f)) (fs.map a))).items (n + i) = a fs[i] := by
  have hnone : t.items (n + i) = [] := items_eq_nil_of_lt fun c hc => by
    have := hlt c hc
    omega
  -- by induction on the rows, each of which has the identity after that of the last
  have hnew : ((hang (numbered n (fs.map f)) (fs.map a)).filter
      fun c => c.owner = n + i).map Owned.item = a fs[i] := by
    clear hlt hnone
    induction fs generalizing n i with
    | nil => cases hi
    | cons x fs ih =>
      rw [List.map_cons, List.map_cons, numbered, hang_cons, List.filter_append, List.map_append]
      cases i with
      | zero =>
        have hrest : (hang (numbered (n + 1) (fs.map f)) (fs.map a)).filter
            (fun c => c.owner = n) = [] := by
          rw [List.filter_eq_nil_iff]
          intro c hc
          have := (hang_owner hc).1
          simp only [decide_eq_true_eq]
          omega
        simp [List.filter_map, Function.comp_def, hrest]
      | succ i =>
        have hhead : ((a x).map (Owned.mk n)).filter
            (fun c => c.owner = n + (i + 1 : ℕ)) = [] := by
          rw [List.filter_eq_nil_iff]
          intro c hc
          obtain ⟨j, -, rfl⟩ := List.mem_map.mp hc
          simp only [decide_eq_true_eq]
          omega
        have hshift : n + ((i + 1 : ℕ) : ℤ) = n + 1 + i := by omega
        rw [hhead, List.map_nil, List.nil_append, hshift]
        exact ih (by simpa using hi)
  rw [items_eq_cols, Table.cols_insertAll, List.filter_append, List.map_append, ← items_eq_cols,
    hnone, hnew, List.nil_append]

/-- Older rows keep their children. -/
theorem items_hang_of_lt {t : Table (Owned A)} {i : ℤ} (hi : i < n) :
    (t.insertAll (hang (numbered n cs) lists)).items i = t.items i := by
  have hnone : (hang (numbered n cs) lists).filter (fun c => c.owner = i) = [] := by
    rw [List.filter_eq_nil_iff]
    intro c hc
    have hle := (hang_owner hc).1
    simp only [decide_eq_true_eq]
    omega
  rw [items_eq_cols, Table.cols_insertAll, List.filter_append, hnone, List.append_nil,
    items_eq_cols]

/-- A view of each new row with its children. -/
theorem map_numbered {β : Type*} {f : F → C} {g : Row C → β} {b : F → β}
    (h : ∀ (i : ℕ) (hi : i < fs.length), g ⟨n + i, f fs[i]⟩ = b fs[i]) :
    (numbered n (fs.map f)).map g = fs.map b := by
  rw [numbered_eq_mapIdx]
  apply List.ext_getElem
  · simp
  · intro i h₁ h₂
    simpa using h i (by simpa using h₂)

theorem hang_nodup {ps : List C} (h : ∀ l ∈ lists, l.Nodup) :
    (hang (numbered n ps) lists).Nodup := by
  induction ps generalizing n lists with
  | nil => simp [hang, numbered]
  | cons p ps ih =>
    cases lists with
    | nil => simp [hang]
    | cons l lists =>
      rw [numbered, hang_cons, List.nodup_append]
      refine ⟨(h l List.mem_cons_self).map fun a b hab => (Owned.mk.inj hab).2,
        ih fun k hk => h k (List.mem_cons_of_mem _ hk), ?_⟩
      intro c hc d hd heq
      obtain ⟨i, -, rfl⟩ := List.mem_map.mp hc
      have := (hang_owner hd).1
      rw [← heq] at this
      simp only at this
      omega

theorem hang_eq_nil {a : F → List A} {f : F → C} :
    hang (numbered n (fs.map f)) (fs.map a) = [] ↔ ∀ x ∈ fs, a x = [] := by
  induction fs generalizing n with
  | nil => simp [hang, numbered]
  | cons x fs ih => simp [numbered, hang_cons, ih]

end Hang

section InsertNested

universe u

variable {P A B : Type u} {F : Type*}

/-- What is asked of the children of the rows of a table, other than their owner. -/
structure ChildCheck (A : Type*) where
  item : A → Bool
  unique : Bool

def ChildCheck.on (k : ChildCheck A) (t : Table P) : ChildSchema A :=
  ⟨t.has, fun _ i => k.item i, k.unique⟩

variable [DecidableEq A] [DecidableEq B]

/-- Rows are inserted, and then the children of each, of two kinds. -/
def insertNested (k : Constraints P) (S : ChildCheck A) (T : ChildCheck B)
    (parents : Table P) (as : Table (Owned A)) (bs : Table (Owned B)) (ps : List P)
    (aLists : List (List A)) (bLists : List (List B)) :
    Option (Table P × Table (Owned A) × Table (Owned B)) := do
  let (parents, rows) ← parents.insertManyReturning k ps
  let as ← as.insertMany (S.on parents).constraints (hang rows aLists)
  let bs ← bs.insertMany (T.on parents).constraints (hang rows bLists)
  return (parents, as, bs)

variable {k : Constraints P} {S : ChildCheck A} {T : ChildCheck B} {t t' : Table P}
  {as as' : Table (Owned A)} {bs bs' : Table (Owned B)} {ps : List P} {fs : List F} {f : F → P}
  {a : F → List A} {b : F → List B}

theorem owner_lt (h : as.Satisfies (S.on t).constraints) {c : Owned A} (hc : c ∈ as.cols) :
    c.owner < t.next :=
  Table.has_lt (ChildSchema.check_iff.mp (h.1 c hc)).1

theorem Table.Satisfies.on_insertAll (h : as.Satisfies (S.on t).constraints) :
    as.Satisfies (S.on (t.insertAll ps)).constraints := by
  refine h.mono ?_ rfl
  intro c hc
  obtain ⟨howner, hitem⟩ := ChildSchema.check_iff.mp hc
  exact ChildSchema.check_iff.mpr ⟨Table.has_insertAll howner, hitem⟩

/-- Rows without children may go. -/
theorem Table.Satisfies.on_deleteWhere (h : as.Satisfies (S.on t).constraints) {p : P → Bool}
    (hp : ∀ r ∈ t.rows, p r.cols → as.items r.id = []) :
    as.Satisfies (S.on (t.deleteWhere p)).constraints := by
  refine ⟨?_, h.2⟩
  intro c hc
  obtain ⟨howner, hitem⟩ := ChildSchema.check_iff.mp (h.1 c hc)
  refine ChildSchema.check_iff.mpr ⟨?_, hitem⟩
  obtain ⟨r, hr, hid⟩ := Table.has_iff.mp howner
  refine Table.has_iff.mpr ⟨r, List.mem_filter.mpr ⟨hr, ?_⟩, hid⟩
  by_contra hpr
  have hnil := hp r hr (by simpa using hpr)
  have hmem : c.item ∈ as.items r.id := mem_items.mpr (hid ▸ hc)
  rw [hnil] at hmem
  cases hmem

theorem insertNested_eq_some
    (h : insertNested k S T t as bs (fs.map f) (fs.map a) (fs.map b) = some (t', as', bs')) :
    t' = t.insertAll (fs.map f) ∧
      as' = as.insertAll (hang (numbered t.next (fs.map f)) (fs.map a)) ∧
      bs' = bs.insertAll (hang (numbered t.next (fs.map f)) (fs.map b)) ∧
      (∃ x ∈ fs, a x ≠ []) ∧ ∃ x ∈ fs, b x ≠ [] := by
  simp only [insertNested, Table.insertManyReturning, Option.bind_eq_bind,
    Option.bind_eq_some_iff, Prod.exists] at h
  obtain ⟨parents, rows, hrows, as'', has, bs'', hbs, heq⟩ := h
  obtain ⟨s, hs, hpair⟩ := Option.map_eq_some_iff.mp hrows
  obtain ⟨rfl, rfl⟩ := Prod.mk.inj hpair
  obtain ⟨-, -, -, rfl⟩ := Table.insertMany_eq_some hs
  obtain ⟨ha, -, -, rfl⟩ := Table.insertMany_eq_some has
  obtain ⟨hb, -, -, rfl⟩ := Table.insertMany_eq_some hbs
  obtain ⟨rfl, h⟩ := Prod.mk.inj (Option.some.inj heq)
  obtain ⟨rfl, rfl⟩ := Prod.mk.inj h
  rw [Ne, hang_eq_nil] at ha hb
  exact ⟨rfl, rfl, rfl, by simpa using ha, by simpa using hb⟩

/-- The constraints still hold. -/
theorem satisfies_insertNested (ht : t.Satisfies k) (has : as.Satisfies (S.on t).constraints)
    (hbs : bs.Satisfies (T.on t).constraints) {aLists : List (List A)} {bLists : List (List B)}
    (h : insertNested k S T t as bs ps aLists bLists = some (t', as', bs')) :
    t'.Satisfies k ∧ as'.Satisfies (S.on t').constraints ∧
      bs'.Satisfies (T.on t').constraints := by
  simp only [insertNested, Table.insertManyReturning, Option.bind_eq_bind,
    Option.bind_eq_some_iff, Prod.exists] at h
  obtain ⟨parents, rows, hrows, as'', has', bs'', hbs', heq⟩ := h
  obtain ⟨s, hs, hpair⟩ := Option.map_eq_some_iff.mp hrows
  obtain ⟨rfl, rfl⟩ := Prod.mk.inj hpair
  obtain ⟨rfl, h⟩ := Prod.mk.inj (Option.some.inj heq)
  obtain ⟨rfl, rfl⟩ := Prod.mk.inj h
  obtain ⟨-, -, -, heq⟩ := Table.insertMany_eq_some hs
  subst heq
  exact ⟨ht.insertMany hs, has.on_insertAll.insertMany has', hbs.on_insertAll.insertMany hbs'⟩

/-- Children of new rows are inserted if there are any and each is fit for its row. -/
theorem insertMany_hang (h : as.Satisfies (S.on t).constraints) (hne : ∃ x ∈ fs, a x ≠ [])
    (hitem : ∀ x ∈ fs, ∀ i ∈ a x, S.item i) (hnodup : S.unique → ∀ x ∈ fs, (a x).Nodup) :
    as.insertMany (S.on (t.insertAll (fs.map f))).constraints
        (hang (numbered t.next (fs.map f)) (fs.map a)) =
      some (as.insertAll (hang (numbered t.next (fs.map f)) (fs.map a))) := by
  have hcheck : (hang (numbered t.next (fs.map f)) (fs.map a)).all
      (S.on (t.insertAll (fs.map f))).constraints.check := by
    rw [List.all_eq_true]
    intro c hc
    obtain ⟨p, hp, hcp⟩ := List.mem_flatMap.mp hc
    obtain ⟨i, hi, rfl⟩ := List.mem_map.mp hcp
    obtain ⟨hrow, hlist⟩ := List.of_mem_zip hp
    obtain ⟨x, hx, hax⟩ := List.mem_map.mp hlist
    refine ChildSchema.check_iff.mpr ⟨?_, hitem x hx i (hax ▸ hi)⟩
    exact Table.has_iff.mpr ⟨p.1, List.mem_append_right _ hrow, rfl⟩
  -- rows of one list differ, and older rows have older owners
  have hpairs : (as.cols ++ hang (numbered t.next (fs.map f)) (fs.map a)).Pairwise
      fun c d => !(S.on (t.insertAll (fs.map f))).constraints.conflict c d := by
    cases hu : S.unique with
    | false => exact List.pairwise_of_forall fun c d => by simp [ChildSchema.constraints,
        ChildCheck.on, hu]
    | true =>
      rw [List.pairwise_append]
      refine ⟨h.2, ?_, ?_⟩
      · have hall : ∀ l ∈ fs.map a, l.Nodup := by simpa using hnodup hu
        refine (hang_nodup hall).imp ?_
        intro c d hcd
        simp [ChildSchema.constraints, hcd]
      · intro c hc d hd
        have hcd : c ≠ d := by
          rintro rfl
          have hlt := owner_lt h hc
          have hle := (hang_owner hd).1
          omega
        simp [ChildSchema.constraints, hcd]
  have hnil : (hang (numbered t.next (fs.map f)) (fs.map a)).isEmpty = false := by
    rw [List.isEmpty_eq_false_iff, Ne, hang_eq_nil]
    simpa using hne
  rw [Table.insertMany, if_neg (by simp [hnil]), if_pos ⟨hcheck, hpairs⟩]

theorem insertNested_eq (hk : ∀ c d, k.conflict c d = false)
    (has : as.Satisfies (S.on t).constraints) (hbs : bs.Satisfies (T.on t).constraints)
    (hcheck : ∀ x ∈ fs, k.check (f x)) (ha : ∃ x ∈ fs, a x ≠ []) (hb : ∃ x ∈ fs, b x ≠ [])
    (haItem : ∀ x ∈ fs, ∀ i ∈ a x, S.item i) (hbItem : ∀ x ∈ fs, ∀ i ∈ b x, T.item i)
    (haNodup : S.unique → ∀ x ∈ fs, (a x).Nodup) (hbNodup : T.unique → ∀ x ∈ fs, (b x).Nodup) :
    insertNested k S T t as bs (fs.map f) (fs.map a) (fs.map b) =
      some (t.insertAll (fs.map f),
        as.insertAll (hang (numbered t.next (fs.map f)) (fs.map a)),
        bs.insertAll (hang (numbered t.next (fs.map f)) (fs.map b))) := by
  have hne : fs.map f ≠ [] := by
    obtain ⟨x, hx, -⟩ := ha
    exact List.ne_nil_of_mem (List.mem_map_of_mem hx)
  unfold insertNested Table.insertManyReturning
  rw [Table.insertMany_eq hk, if_pos ⟨hne, by simpa using hcheck⟩]
  simp only [Option.map_some, Option.bind_eq_bind, Option.bind_some,
    insertMany_hang has ha haItem haNodup, insertMany_hang hbs hb hbItem hbNodup]
  rfl

end InsertNested

section MapM

variable {α β : Type*} {l : List α} {ys : List β} {f : α → Option β} {g : α → β}

theorem mapM_eq_map (h : ∀ x ∈ l, f x = some (g x)) : l.mapM f = some (l.map g) := by
  induction l with
  | nil => rfl
  | cons x l ih =>
    rw [List.mapM_cons, h x List.mem_cons_self, ih fun y hy => h y (List.mem_cons_of_mem _ hy)]
    rfl

theorem mapM_eq_some_iff :
    l.mapM f = some ys ↔ List.Forall₂ (fun x y => f x = some y) l ys := by
  induction l generalizing ys with
  | nil =>
    rw [List.mapM_nil, List.forall₂_nil_left_iff]
    exact ⟨fun h => (Option.some.inj h).symm, fun h => by rw [h]; rfl⟩
  | cons x l ih =>
    rw [List.mapM_cons, List.forall₂_cons_left_iff]
    constructor
    · intro h
      obtain ⟨y, hy, h⟩ := Option.bind_eq_some_iff.mp h
      obtain ⟨zs, hzs, h⟩ := Option.bind_eq_some_iff.mp h
      exact ⟨y, zs, hy, ih.mp hzs, (Option.some.inj h).symm⟩
    · rintro ⟨y, zs, hy, hzs, rfl⟩
      rw [hy, ih.mpr hzs]
      rfl

theorem mapM_zipIdx_eq_some_iff {f : α × ℕ → Option β} : l.zipIdx.mapM f = some ys ↔
    ys.length = l.length ∧
      ∀ i x y, l[i]? = some x → ys[i]? = some y → f (x, i) = some y := by
  rw [mapM_eq_some_iff, List.forall₂_iff_get]
  refine and_congr (by rw [List.length_zipIdx, eq_comm]) ⟨?_, ?_⟩
  · intro h i x y hx hy
    obtain ⟨hi, rfl⟩ := List.getElem?_eq_some_iff.mp hx
    obtain ⟨hi', rfl⟩ := List.getElem?_eq_some_iff.mp hy
    simpa using h i (by simpa using hi) hi'
  · intro h i hi hi'
    rw [List.length_zipIdx] at hi
    simpa using h i _ _ (List.getElem?_eq_getElem hi) (List.getElem?_eq_getElem hi')

theorem mapM_eq_filterMap (h : ∀ x ∈ l, ∃ y, f x = some y) :
    l.mapM f = some (l.filterMap f) := by
  induction l with
  | nil => rfl
  | cons x l ih =>
    obtain ⟨y, hy⟩ := h x List.mem_cons_self
    rw [List.mapM_cons, hy, ih fun z hz => h z (List.mem_cons_of_mem _ hz),
      List.filterMap_cons_some hy]
    rfl

theorem eq_map_of_mapM (h : l.mapM f = some ys) (hg : ∀ x y, f x = some y → y = g x) :
    ys = l.map g ∧ ∀ x ∈ l, f x = some (g x) := by
  induction l generalizing ys with
  | nil =>
    obtain rfl := Option.some.inj h
    simp
  | cons x l ih =>
    rw [List.mapM_cons] at h
    obtain ⟨y, hy, h⟩ := Option.bind_eq_some_iff.mp h
    obtain ⟨zs, hzs, h⟩ := Option.bind_eq_some_iff.mp h
    obtain rfl := Option.some.inj h
    obtain ⟨rfl, hall⟩ := ih hzs
    obtain rfl := hg x y hy
    refine ⟨rfl, ?_⟩
    intro z hz
    rcases List.mem_cons.mp hz with rfl | hz
    · exact hy
    · exact hall z hz

end MapM

end Relational
