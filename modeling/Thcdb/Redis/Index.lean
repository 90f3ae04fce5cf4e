import Thcdb.Redis.Keyspace

namespace Redis

variable {κ ι β : Type*} [DecidableEq κ] [DecidableEq ι]

namespace Keyspace

def nameAt (s : Keyspace κ β) (name : β → Option ι) (k : κ) : Option ι := (s.get k).bind name

/-- `index` has an entry for every named value, with the same expiry, and no other. -/
def IndexedBy (s : Keyspace κ β) (index : Keyspace ι κ) (name : β → Option ι) : Prop :=
  ∀ i k t, index i = some ⟨k, t⟩ ↔ ∃ v, s k = some ⟨v, t⟩ ∧ name v = some i

variable {s : Keyspace κ β} {index index' : Keyspace ι κ} {name : β → Option ι} {k : κ} {v : β}
  {now ttl : ℕ}

omit [DecidableEq κ] [DecidableEq ι] in
theorem nameAt_of_eq {t : ℕ} (h : s k = some ⟨v, t⟩) : s.nameAt name k = name v := by
  simp [nameAt, get, h]

omit [DecidableEq κ] [DecidableEq ι] in
theorem IndexedBy.empty : IndexedBy (fun _ : κ => (none : Option (Entry β))) (fun _ => none) name := by
  intro i k t
  simp

omit [DecidableEq κ] [DecidableEq ι] in
/-- The listing of a value finds the key it came from. -/
theorem IndexedBy.eq_some (h : s.IndexedBy index name) {i : ι} (hn : s.nameAt name k = some i) :
    ∃ v t, s k = some ⟨v, t⟩ ∧ name v = some i ∧ index i = some ⟨k, t⟩ := by
  obtain ⟨v, hv, hi⟩ := Option.bind_eq_some_iff.mp hn
  obtain ⟨e, he, rfl⟩ := get_eq_some.mp hv
  exact ⟨e.value, e.expireAt, he, hi, (h i k e.expireAt).mpr ⟨e.value, he, hi⟩⟩

omit [DecidableEq κ] [DecidableEq ι] in
theorem IndexedBy.expire (h : s.IndexedBy index name) (now : ℕ) :
    (s.expire now).IndexedBy (index.expire now) name := by
  intro i k t
  rw [expire_eq_some, h i k t]
  constructor
  · rintro ⟨⟨v, hv, hn⟩, ht⟩
    exact ⟨v, expire_eq_some.mpr ⟨hv, ht⟩, hn⟩
  · rintro ⟨v, hv, hn⟩
    obtain ⟨hv, ht⟩ := expire_eq_some.mp hv
    exact ⟨⟨v, hv, hn⟩, ht⟩

omit [DecidableEq κ] in
/-- Changing one value, unlisting what it was and listing what it is now under a name that no other
value has, keeps the index. -/
theorem IndexedBy.relist {s' : Keyspace κ β} (h : s.IndexedBy index name)
    (hs : ∀ l, l ≠ k → s' l = s l)
    (hfresh : ∀ i l, s'.nameAt name k = some i → l ≠ k → s.nameAt name l ≠ some i)
    (hindex : ∀ i, index' i = if s'.nameAt name k = some i then (s' k).map (⟨k, ·.expireAt⟩)
      else if s.nameAt name k = some i then none else index i) :
    s'.IndexedBy index' name := by
  intro i l t
  rw [hindex i]
  by_cases hl : l = k
  · subst hl
    by_cases hv : s'.nameAt name l = some i
    · rw [if_pos hv]
      obtain ⟨v, hv, hn⟩ := Option.bind_eq_some_iff.mp hv
      obtain ⟨e, he, rfl⟩ := get_eq_some.mp hv
      rw [he]
      constructor
      · intro hi
        obtain ⟨-, rfl⟩ := Entry.mk.inj (Option.some.inj hi)
        exact ⟨e.value, rfl, hn⟩
      · rintro ⟨w, hw, -⟩
        obtain rfl := Option.some.inj hw
        rfl
    · -- the old listing is gone, and any other one would name the old value
      rw [if_neg hv]
      constructor
      · intro hi
        split at hi
        · cases hi
        · rename_i hold
          obtain ⟨w, hw, hn⟩ := (h i l t).mp hi
          exact absurd ((nameAt_of_eq hw).trans hn) hold
      · rintro ⟨w, hw, hn⟩
        exact absurd ((nameAt_of_eq hw).trans hn) hv
  · -- the other keys: none of them has the new name, and the old one was not theirs
    rw [hs l hl]
    by_cases hv : s'.nameAt name k = some i
    · rw [if_pos hv]
      constructor
      · intro hi
        obtain ⟨e, -, he⟩ := Option.map_eq_some_iff.mp hi
        obtain ⟨rfl, -⟩ := Entry.mk.inj he
        exact absurd rfl hl
      · rintro ⟨w, hw, hn⟩
        exact absurd ((nameAt_of_eq hw).trans hn) (hfresh i l hv hl)
    · rw [if_neg hv]
      by_cases hold : s.nameAt name k = some i
      · rw [if_pos hold]
        obtain ⟨w, t', -, -, hi⟩ := h.eq_some hold
        rw [← h i l t, hi]
        constructor
        · intro hnone
          cases hnone
        · intro hsome
          obtain ⟨rfl, -⟩ := Entry.mk.inj (Option.some.inj hsome)
          exact absurd rfl hl
      · rw [if_neg hold]
        exact h i l t

theorem IndexedBy.setEx (h : s.IndexedBy index name)
    (hfresh : ∀ i l, name v = some i → l ≠ k → s.nameAt name l ≠ some i)
    (hindex : ∀ i, index' i = if name v = some i then some ⟨k, millis now + ttl * 1000⟩
      else if s.nameAt name k = some i then none else index i) :
    (s.setEx now k v ttl).IndexedBy index' name := by
  have hname : (s.setEx now k v ttl).nameAt name k = name v := nameAt_of_eq setEx_self
  apply h.relist (fun l hl => setEx_of_ne hl)
  · rw [hname]
    exact hfresh
  · rw [hname, setEx_self]
    exact hindex

theorem IndexedBy.del (h : s.IndexedBy index name)
    (hindex : ∀ i, index' i = if s.nameAt name k = some i then none else index i) :
    (s.del k).IndexedBy index' name := by
  have hname : (s.del k).nameAt name k = none := by simp [nameAt, get]
  apply h.relist (fun l hl => del_of_ne hl)
  · simp [hname]
  · simpa [hname] using hindex

omit [DecidableEq κ] [DecidableEq ι] in
theorem IndexedBy.get_iff (h : s.IndexedBy index name) {i : ι} :
    index.get i = some k ↔ s.nameAt name k = some i := by
  constructor
  · intro hi
    obtain ⟨⟨l, t⟩, he, rfl⟩ := get_eq_some.mp hi
    obtain ⟨v, hv, hn⟩ := (h i l t).mp he
    exact (nameAt_of_eq hv).trans hn
  · intro hn
    obtain ⟨v, t, -, -, hi⟩ := h.eq_some hn
    simp [get, hi]

end Keyspace

end Redis
