import Mathlib.Data.List.TakeDrop
import Thcdb.Paging.Slices
import Thcdb.Relational.Ordered

namespace Thcdb
open Paging Relational

def DEFAULT_LIMIT : UInt32 := 20

def MAX_LIMIT : UInt32 := 100

def clamp (x low high : UInt32) : UInt32 := if x < low then low else if high < x then high else x

structure PageQuery where
  limit? : Option UInt32
  page? : Option UInt32
  deriving DecidableEq, Repr

namespace PageQuery

def limit (q : PageQuery) : UInt32 := clamp (q.limit?.getD DEFAULT_LIMIT) 1 MAX_LIMIT

def page (q : PageQuery) : UInt32 := max (q.page?.getD 1) 1

end PageQuery

structure PageResponse (T : Type*) where
  items : List T
  page : UInt32
  pageSize : UInt32
  totalItems : ℕ
  totalPages : ℕ
  deriving DecidableEq, Repr

def U32_MAX : ℕ := 2 ^ 32 - 1

def U64_MAX : ℕ := 2 ^ 64 - 1

def USIZE_MAX : ℕ := U64_MAX

/-- The conversion to `u32` saturates. -/
def totalPages (totalItems : ℕ) (pageSize : UInt32) : ℕ :=
  if totalItems = 0 then 0 else min (sliceCount pageSize.toNat totalItems) U32_MAX

/-- Both the subtraction and the product saturate. -/
def pageOffset (page pageSize : UInt32) : ℕ :=
  min ((page.toNat - 1) * pageSize.toNat) U64_MAX

/-- Rows of a query with `ORDER BY id OFFSET .. LIMIT ..`. -/
def selectPage {R : Type*} (rows : List (Row R)) (offset limit : ℕ) : List (Row R) :=
  ((sortById rows).drop offset).take limit

def findManyPage {R D E : Type*} (table : Table R) (select : Row R → Bool) (pagination : PageQuery)
    (fetch : List (Row R) → Except E (List D)) : Except E (PageResponse D) := do
  let page := pagination.page
  let pageSize := pagination.limit
  let totalItems := (table.rows.filter select).length
  let items ← fetch (selectPage (table.rows.filter select) (pageOffset page pageSize)
    pageSize.toNat)
  return ⟨items, page, pageSize, totalItems, totalPages totalItems pageSize⟩

def pageFromItems {T : Type*} (items : List T) (pagination : PageQuery) : PageResponse T :=
  let page := pagination.page
  let pageSize := pagination.limit
  let start := min (pageOffset page pageSize) USIZE_MAX
  { items := if items.length ≤ start then [] else (items.drop start).take pageSize.toNat
    page := page
    pageSize := pageSize
    totalItems := items.length
    totalPages := totalPages items.length pageSize }

namespace PageQuery
variable (q : PageQuery)

theorem limit_pos : 0 < q.limit.toNat := by
  unfold limit clamp
  split
  · decide
  · next hlow =>
    split
    · decide
    · have h := UInt32.le_iff_toNat_le.mp (UInt32.not_lt.mp hlow)
      exact h

theorem limit_le : q.limit.toNat ≤ 100 := by
  unfold limit clamp
  split
  · decide
  · split
    · decide
    · next hhigh => exact UInt32.le_iff_toNat_le.mp (UInt32.not_lt.mp hhigh)

theorem page_eq (limit? : Option UInt32) {p : UInt32} (h : 0 < p.toNat) :
    (⟨limit?, some p⟩ : PageQuery).page = p := by
  unfold page
  have hp : ¬ p ≤ 1 ∨ p = 1 := by
    by_cases h1 : p ≤ 1
    · have := UInt32.le_iff_toNat_le.mp h1
      exact Or.inr (UInt32.toNat_inj.mp (by simp_all; omega))
    · exact Or.inl h1
  rcases hp with hp | rfl
  · simp [max, hp]
  · rfl

end PageQuery

section Agreement
variable {R D E T : Type} {q : PageQuery}

/-- No page number and page size come near the saturation of the offset. -/
theorem pageOffset_eq (p : UInt32) : pageOffset p q.limit = (p.toNat - 1) * q.limit.toNat := by
  have hp := p.toNat_lt
  have hs := q.limit_le
  have hprod : (p.toNat - 1) * q.limit.toNat ≤ 2 ^ 32 * 100 := Nat.mul_le_mul (by omega) hs
  exact min_eq_left (hprod.trans (by decide))

theorem pageFromItems_items (items : List T) :
    (pageFromItems items q).items = slice q.limit.toNat (q.page.toNat - 1) items := by
  have hstart : min (pageOffset q.page q.limit) USIZE_MAX =
      (q.page.toNat - 1) * q.limit.toNat := by
    rw [← pageOffset_eq]
    exact min_eq_left (min_le_right _ _)
  simp only [pageFromItems, hstart]
  split
  · next h => exact (slice_eq_nil h).symm
  · rfl

theorem selectPage_eq (rows : List (Row R)) :
    selectPage rows (pageOffset q.page q.limit) q.limit.toNat =
      (pageFromItems (sortById rows) q).items := by
  rw [pageFromItems_items, selectPage, pageOffset_eq, slice]

/-- The rows that are fetched are those of the page in memory, which also gives the counts. -/
theorem findManyPage_eq (table : Table R) (select : Row R → Bool)
    (fetch : List (Row R) → Except E (List D)) :
    findManyPage table select q fetch =
      let response := pageFromItems (sortById (table.rows.filter select)) q
      (fetch response.items).map fun items =>
        ⟨items, response.page, response.pageSize, response.totalItems, response.totalPages⟩ := by
  unfold findManyPage
  simp only [selectPage_eq]
  have hlength : (table.rows.filter select).length =
      (sortById (table.rows.filter select)).length := sortById_perm.length_eq.symm
  rw [hlength]
  cases fetch (pageFromItems (sortById (table.rows.filter select)) q).items <;> rfl

/-- A page of converted items is the converted page. -/
theorem pageFromItems_map (f : T → D) (items : List T) :
    pageFromItems (items.map f) q =
      let response := pageFromItems items q
      ⟨response.items.map f, response.page, response.pageSize, response.totalItems,
        response.totalPages⟩ := by
  simp only [pageFromItems, List.length_map, PageResponse.mk.injEq, and_self, and_true]
  split
  · rfl
  · rw [← List.map_drop, List.map_take]

end Agreement

section Coverage
variable {T : Type} {items : List T} {limit? : Option UInt32}

def pageItems (items : List T) (limit? : Option UInt32) (p : UInt32) : List T :=
  (pageFromItems items ⟨limit?, some p⟩).items

def pageCount (items : List T) (limit? : Option UInt32) : ℕ :=
  (pageFromItems items ⟨limit?, none⟩).totalPages

def pageSize (limit? : Option UInt32) : ℕ := (PageQuery.mk limit? none).limit.toNat

structure Covered (items : List T) (limit? : Option UInt32) : Prop where
  concat : (List.range (pageCount items limit?)).flatMap
    (fun i => pageItems items limit? (UInt32.ofNat (i + 1))) = items
  full : ∀ p : UInt32, 0 < p.toNat → p.toNat < pageCount items limit? →
    (pageItems items limit? p).length = pageSize limit?
  beyond : ∀ p : UInt32, pageCount items limit? < p.toNat → pageItems items limit? p = []

theorem pageSize_pos : 0 < pageSize limit? := PageQuery.limit_pos _

theorem pageItems_eq {p : UInt32} (hp : 0 < p.toNat) :
    pageItems items limit? p = slice (pageSize limit?) (p.toNat - 1) items := by
  rw [pageItems, pageFromItems_items, PageQuery.page_eq limit? hp]
  rfl

theorem totalPages_le (totalItems : ℕ) (size : UInt32) : totalPages totalItems size ≤ U32_MAX := by
  unfold totalPages
  split
  · exact Nat.zero_le _
  · exact min_le_right _ _

/-- The numbers of the pages fit into 32 bits. -/
theorem toNat_pageNumber {totalItems i : ℕ} {size : UInt32} (h : i < totalPages totalItems size) :
    (UInt32.ofNat (i + 1)).toNat = i + 1 := by
  have hcount := totalPages_le totalItems size
  refine UInt32.toNat_ofNat_of_lt' ?_
  show i + 1 < 2 ^ 32
  unfold U32_MAX at hcount
  omega

theorem pageCount_eq :
    pageCount items limit? = min (sliceCount (pageSize limit?) items.length) U32_MAX := by
  show totalPages items.length _ = _
  unfold totalPages
  split
  · next h =>
    rw [h, sliceCount_zero pageSize_pos]
    rfl
  · rfl

theorem concat_pageItems : (List.range (pageCount items limit?)).flatMap
    (fun i => pageItems items limit? (UInt32.ofNat (i + 1))) =
      items.take (pageCount items limit? * pageSize limit?) := by
  rw [← flatMap_slice]
  refine List.flatMap_congr fun i hi => ?_
  have hnumber := toNat_pageNumber (List.mem_range.mp hi)
  rw [pageItems_eq (by omega), hnumber, Nat.add_sub_cancel]

/-- The pages cover the list exactly if their number fits into 32 bits. -/
theorem covered_iff :
    Covered items limit? ↔ items.length ≤ U32_MAX * pageSize limit? := by
  constructor
  · intro h
    have hconcat := h.concat
    rw [concat_pageItems, List.take_eq_self_iff, pageCount_eq] at hconcat
    exact hconcat.trans (Nat.mul_le_mul_right _ (min_le_right _ _))
  · intro h
    have hcount : pageCount items limit? = sliceCount (pageSize limit?) items.length := by
      rw [pageCount_eq]
      exact min_eq_left ((sliceCount_le_iff pageSize_pos).mpr h)
    refine ⟨?_, ?_, ?_⟩
    · rw [concat_pageItems, List.take_eq_self_iff, hcount]
      exact le_sliceCount_mul pageSize_pos
    · intro p hp hlt
      rw [pageItems_eq hp]
      exact length_slice_of_lt pageSize_pos (by omega)
    · intro p hlt
      rw [pageItems_eq (by omega)]
      refine slice_eq_nil ((sliceCount_le_iff pageSize_pos).mp ?_)
      omega

end Coverage

/-- Both builders answer alike for every table and query, and the pages cover every list whose
pages can be numbered. -/
theorem pages_agree_and_cover :
    (∀ (R D E : Type) (table : Table R) (select : Row R → Bool) (q : PageQuery) (convert : Row R → D),
      findManyPage (E := E) table select q (fun rows => .ok (rows.map convert)) =
        .ok (pageFromItems ((sortById (table.rows.filter select)).map convert) q)) ∧
    ∀ (T : Type) (items : List T) (limit? : Option UInt32),
      Covered items limit? ↔ items.length ≤ U32_MAX * pageSize limit? := by
  constructor
  · intro R D E table select q convert
    rw [findManyPage_eq, pageFromItems_map]
    rfl
  · intro T items limit?
    exact covered_iff

/-- Pages of one item do not cover a list of `2 ^ 32` items. -/
theorem long_list_not_covered :
    ¬ ∀ (T : Type) (items : List T) (limit? : Option UInt32), Covered items limit? := by
  intro h
  have hbound := covered_iff.mp (h Unit (List.replicate (2 ^ 32) ()) (some 1))
  rw [List.length_replicate] at hbound
  exact absurd hbound (by decide)

end Thcdb
