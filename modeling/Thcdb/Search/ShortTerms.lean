import Mathlib.Data.Set.Finite.Lemmas
import Thcdb.Paging.Offsets
import Thcdb.Search.Query

namespace Thcdb.Search
open Catalog Paging Relational
open Explore (IsKey)

section Meaning
variable {C T D : Type} [LinearOrder D] (X : TextOps D) (S : Searchable C T) (term : String)

/-- The names of an entity: its own, and those of the other table. -/
def Searchable.names (r : Row C) : List String :=
  S.ident r.cols :: (S.altNames.filter fun n => n.1 = r.id).map Prod.snd

/-- The name starts with the term, whatever the case. -/
def StartsWith (name : String) : Prop := (X.lower term).toList <+: (X.lower name).toList

/-- The name starts with what the term is as a pattern. -/
def MatchesPattern (name : String) : Prop :=
  Admin.like ((X.lower term).toList ++ ['%']) (X.lower name).toList

variable (p : String → Prop)

def distances (r : Row C) : Set D :=
  {d | ∃ name ∈ S.names r, p name ∧ d = X.similarityDistance (X.lower name) (X.lower term)}

/-- The order by the least distance, and then by the identity. -/
def Precedes (r s : Row C) : Prop :=
  ∃ d e, IsLeast (distances X S term p r) d ∧ IsLeast (distances X S term p s) e ∧
    toLex (d, r.id) < toLex (e, s.id)

/-- The entities with such a name, each once and in their order. -/
structure Lists (rows : List (Row C)) : Prop where
  mem : ∀ r, r ∈ rows ↔ r ∈ S.table.rows ∧ ∃ name ∈ S.names r, p name
  nodup : rows.Nodup
  sorted : rows.Pairwise (Precedes X S term p)

end Meaning

section Hits
variable {C T D : Type} {X : TextOps D} {S : Searchable C T} {term : String} {r : Row C}

theorem mem_createHits (hshort : term.length < 3) {names : List (ℤ × String)} {id : ℤ} {d : D} :
    (id, d) ∈ createHits X term names ↔ ∃ name, (id, name) ∈ names ∧ MatchesPattern X term name ∧
      d = X.similarityDistance (X.lower name) (X.lower term) := by
  have hmode : matchMode term = .Prefix := if_pos hshort
  have hpattern : (X.lower (term ++ "%")).toList = (X.lower term).toList ++ ['%'] := by
    rw [X.lower_percent, String.toList_append]
    rfl
  simp only [createHits, hmode, hpattern, List.mem_map, List.mem_filter, Prod.mk.injEq]
  constructor
  · rintro ⟨⟨_, name⟩, ⟨hname, hlike⟩, rfl, rfl⟩
    exact ⟨name, hname, hlike, rfl⟩
  · rintro ⟨name, hname, hlike, rfl⟩
    exact ⟨(id, name), ⟨hname, hlike⟩, rfl, rfl⟩

/-- The two tables have the names of an entity between them. -/
theorem mem_names_iff (hr : r ∈ S.table.rows) {name : String} : name ∈ S.names r ↔
    (r.id, name) ∈ S.table.rows.map (fun r => (r.id, S.ident r.cols)) ∨
      (r.id, name) ∈ S.altNames := by
  have hown : (r.id, name) ∈ S.table.rows.map (fun r => (r.id, S.ident r.cols)) ↔
      name = S.ident r.cols := by
    rw [List.mem_map]
    constructor
    · rintro ⟨s, hs, heq⟩
      obtain ⟨hid, rfl⟩ := Prod.mk.inj heq
      rw [Table.eq_of_id hs hr hid]
    · rintro rfl
      exact ⟨r, hr, rfl⟩
  have halt : name ∈ (S.altNames.filter fun n => n.1 = r.id).map Prod.snd ↔
      (r.id, name) ∈ S.altNames := by
    simp only [List.mem_map, List.mem_filter, decide_eq_true_eq]
    constructor
    · rintro ⟨⟨_, _⟩, ⟨hn, rfl⟩, rfl⟩
      exact hn
    · intro hn
      exact ⟨(r.id, name), ⟨hn, rfl⟩, rfl⟩
  rw [Searchable.names, List.mem_cons, hown, halt]

/-- The hits of an entity are the distances of the names that match the pattern. -/
theorem hits_eq_distances (hshort : term.length < 3) (hr : r ∈ S.table.rows) :
    {d | (r.id, d) ∈ createHits X term (S.table.rows.map fun r => (r.id, S.ident r.cols)) ++
      createHits X term S.altNames} = distances X S term (MatchesPattern X term) r := by
  ext d
  simp only [Set.mem_ofPred_eq, List.mem_append, mem_createHits hshort, distances,
    mem_names_iff hr, or_and_right, exists_or]

variable [LinearOrder D]

theorem mem_createRanked {baseHits altHits : List (ℤ × D)} {id : ℤ} {d : D} :
    (id, d) ∈ createRanked baseHits altHits ↔ IsLeast {e | (id, e) ∈ baseHits ++ altHits} d := by
  have hmin : Std.LawfulOrderMin D := ⟨⟩
  have hgroup : ∀ (id' : ℤ) (e : D),
      e ∈ ((baseHits ++ altHits).filter fun hit => hit.1 = id').map Prod.snd ↔
        (id', e) ∈ baseHits ++ altHits := by
    intro id' e
    simp only [List.mem_map, List.mem_filter, decide_eq_true_eq]
    constructor
    · rintro ⟨⟨_, _⟩, ⟨hhit, rfl⟩, rfl⟩
      exact hhit
    · intro hhit
      exact ⟨(id', e), ⟨hhit, rfl⟩, rfl⟩
  simp only [createRanked, List.mem_filterMap, Option.map_eq_some_iff, List.min?_eq_some_iff,
    hgroup, List.mem_dedup, Prod.mk.injEq]
  constructor
  · rintro ⟨_, _, _, ⟨hhit, hle⟩, rfl, rfl⟩
    exact ⟨hhit, hle⟩
  · rintro ⟨hhit, hle⟩
    exact ⟨id, List.mem_map_of_mem hhit, d, ⟨hhit, hle⟩, rfl, rfl⟩

theorem nodup_createRanked {baseHits altHits : List (ℤ × D)} :
    (createRanked baseHits altHits).Pairwise fun a b => a.1 ≠ b.1 := by
  rw [createRanked, List.pairwise_filterMap]
  refine (List.nodup_dedup _).imp fun hne a ha b hb => ?_
  obtain ⟨_, _, rfl⟩ := Option.map_eq_some_iff.mp ha
  obtain ⟨_, _, rfl⟩ := Option.map_eq_some_iff.mp hb
  exact hne

end Hits

section Ranking
variable {C T D : Type} [LinearOrder D] {X : TextOps D} {S : Searchable C T} {term : String}
  {r : Row C}

theorem mem_joinedRows (hshort : term.length < 3) {k : D ×ₗ ℤ} :
    (k, r) ∈ joinedRows X S term ↔ r ∈ S.table.rows ∧
      ∃ d, IsLeast (distances X S term (MatchesPattern X term) r) d ∧ k = toLex (d, r.id) := by
  simp only [joinedRows, List.mem_flatMap, List.mem_map, List.mem_filter, decide_eq_true_eq,
    Prod.mk.injEq]
  constructor
  · rintro ⟨⟨_, d⟩, hhit, _, ⟨hr, rfl⟩, rfl, rfl⟩
    rw [mem_createRanked, hits_eq_distances hshort hr] at hhit
    exact ⟨hr, d, hhit, rfl⟩
  · rintro ⟨hr, d, hd, rfl⟩
    rw [← hits_eq_distances hshort hr, ← mem_createRanked] at hd
    exact ⟨(r.id, d), hd, r, ⟨hr, rfl⟩, rfl, rfl⟩

theorem nodup_joinedRows : (joinedRows X S term).Pairwise fun a b => a.2.id ≠ b.2.id := by
  rw [joinedRows, List.pairwise_flatMap]
  constructor
  · intro hit _
    rw [List.pairwise_map]
    exact (List.pairwise_map.mp S.table.nodup).sublist List.filter_sublist
  · refine nodup_createRanked.imp fun hne a ha b hb => ?_
    obtain ⟨r, hr, rfl⟩ := List.mem_map.mp ha
    obtain ⟨s, hs, rfl⟩ := List.mem_map.mp hb
    rw [of_decide_eq_true (List.mem_filter.mp hr).2, of_decide_eq_true (List.mem_filter.mp hs).2]
    exact hne

/-- There is a least distance as soon as a name matches, as there are finitely many. -/
theorem exists_least_iff {p : String → Prop} :
    (∃ d, IsLeast (distances X S term p r) d) ↔ ∃ name ∈ S.names r, p name := by
  constructor
  · rintro ⟨_, ⟨name, hname, hmatch, _⟩, _⟩
    exact ⟨name, hname, hmatch⟩
  · rintro ⟨name, hname, hmatch⟩
    have hfinite : (distances X S term p r).Finite := by
      refine (((S.names r).map fun name =>
        X.similarityDistance (X.lower name) (X.lower term)).finite_toSet).subset ?_
      rintro _ ⟨name, hname, _, rfl⟩
      exact List.mem_map.mpr ⟨name, hname, rfl⟩
    obtain ⟨d, hd, hle⟩ := Set.exists_min_image _ id hfinite ⟨_, name, hname, hmatch, rfl⟩
    exact ⟨d, hd, hle⟩

theorem mem_rankedRows (hshort : term.length < 3) : r ∈ rankedRows X S term ↔
    r ∈ S.table.rows ∧ ∃ name ∈ S.names r, MatchesPattern X term name := by
  have hperm := List.perm_insertionSort (fun a b => a.1 ≤ b.1) (joinedRows X S term)
  rw [rankedRows, (hperm.map Prod.snd).mem_iff, List.mem_map]
  constructor
  · rintro ⟨⟨k, _⟩, hk, rfl⟩
    obtain ⟨hr, d, hd, -⟩ := (mem_joinedRows hshort).mp hk
    exact ⟨hr, exists_least_iff.mp ⟨d, hd⟩⟩
  · rintro ⟨hr, hname⟩
    obtain ⟨d, hd⟩ := (exists_least_iff (X := X)).mpr hname
    exact ⟨(toLex (d, r.id), r), (mem_joinedRows hshort).mpr ⟨hr, d, hd, rfl⟩, rfl⟩

/-- The query lists the entities that match the pattern. -/
theorem lists_rankedRows (hshort : term.length < 3) :
    Lists X S term (MatchesPattern X term) (rankedRows X S term) := by
  have hperm := List.perm_insertionSort (fun a b => a.1 ≤ b.1) (joinedRows X S term)
  have hsorted := List.pairwise_insertionSort
    (fun a b : (D ×ₗ ℤ) × Row C => a.1 ≤ b.1) (joinedRows X S term)
  have hids : ((joinedRows X S term).insertionSort fun a b => a.1 ≤ b.1).Pairwise
      fun a b => a.2.id ≠ b.2.id := (hperm.pairwise_iff fun h => h.symm).mpr nodup_joinedRows
  refine ⟨fun r => mem_rankedRows hshort, ?_, ?_⟩
  · rw [rankedRows, List.Nodup, List.pairwise_map]
    exact hids.imp fun hne => ne_of_apply_ne Row.id hne
  · rw [rankedRows, List.pairwise_map]
    refine (hsorted.and hids).imp_of_mem fun {a b} ha hb hab => ?_
    obtain ⟨-, d, hd, hka⟩ := (mem_joinedRows hshort).mp (hperm.mem_iff.mp ha)
    obtain ⟨-, e, he, hkb⟩ := (mem_joinedRows hshort).mp (hperm.mem_iff.mp hb)
    refine ⟨d, e, hd, he, ?_⟩
    rw [← hka, ← hkb]
    refine lt_of_le_of_ne hab.1 fun heq => hab.2 ?_
    rw [hka, hkb] at heq
    exact congrArg (fun k => (ofLex k).2) heq

end Ranking

section Pages
variable {C T D : Type} [LinearOrder D] {X : TextOps D} {S : Searchable C T} {value : String}
  {term : SearchTerm} {limit? : Option UInt32}

def pageFrom (X : TextOps D) (S : Searchable C T) (value : String) (limit? : Option UInt32)
    (cursor : ℤ) : Option (List T × Option ℤ) :=
  (searchSingle X S ⟨value, limit?, some cursor⟩).toOption.map fun r => (r.items, r.nextCursor)

theorem normalizeLimit_bounds : 0 < (normalizeLimit limit?).toNat ∧
    (normalizeLimit limit?).toNat ≤ 50 := by
  unfold normalizeLimit clamp
  split_ifs with hlow hhigh
  · decide
  · decide
  · rw [UInt32.not_lt, UInt32.le_iff_toNat_le] at hlow hhigh
    exact ⟨hlow, hhigh⟩

theorem length_rankedRows_lt (hshort : term.text.length < 3) :
    (rankedRows X S term.text).length < 2 ^ 31 := by
  have hlists : Lists X S term.text _ (rankedRows X S term.text) := lists_rankedRows hshort
  have htable : ∀ r ∈ rankedRows X S term.text, r ∈ S.table.rows := by
    intro r hr
    exact ((hlists.mem r).mp hr).1
  rw [← List.length_map Row.id]
  refine Explore.length_lt_of_keys ?_ fun id hid => ?_
  · exact hlists.nodup.map_on fun r hr s hs heq => Table.eq_of_id (htable r hr) (htable s hs) heq
  · obtain ⟨r, hr, rfl⟩ := List.mem_map.mp hid
    exact S.keys r (htable r hr)

/-- The row that is read beyond the limit tells whether there is a next page. -/
theorem paginateOffset_eq {items : List T} {limit : UInt32} {n : ℕ} (hitems : items.length < 2 ^ 31)
    (hlimit : limit.toNat ≤ 50) :
    paginateOffset ((items.drop n).take (limit.toNat + 1)) limit n =
      .ok ⟨(offsetPage items limit.toNat n).1, (offsetPage items limit.toNat n).2⟩ := by
  have hmin : min limit.toNat I32_MAX = limit.toNat := min_eq_left (by unfold I32_MAX; omega)
  by_cases hmore : n + limit.toNat < items.length
  · have hrest : limit.toNat < (items.drop n).length := by
      rw [List.length_drop]
      omega
    have hpage : ((items.drop n).take (limit.toNat + 1)).dropLast =
        (items.drop n).take limit.toNat := (if_pos hrest).symm.trans drop_probe
    have hsum : (n : ℤ) + limit.toNat ≤ I32_MAX := by
      unfold I32_MAX
      omega
    simp only [paginateOffset, if_neg (Nat.not_le.mpr (lt_length_probe.mpr hrest)), hmin,
      if_pos hsum, hpage, offsetPage_next hmore, Int.natCast_add]
  · have hrest : (items.drop n).length ≤ limit.toNat := by
      rw [List.length_drop]
      omega
    have hall : (items.drop n).take (limit.toNat + 1) = items.drop n :=
      List.take_of_length_le (by omega)
    rw [hall, paginateOffset, if_pos hrest, offsetPage_last (by omega)]

theorem searchSingle_eq (h : SearchTerm.tryNew X value .DEFAULT = .ok term) (cursor : ℤ) :
    searchSingle X S ⟨value, limit?, some cursor⟩ =
      search X S term.text (normalizeLimit limit?) (max cursor 0) := by
  simp only [searchSingle, SearchSingleQuery.validate, h]
  rfl

/-- There are too few rows for a sum to overflow. -/
theorem pageFrom_eq (h : SearchTerm.tryNew X value .DEFAULT = .ok term)
    (hshort : term.text.length < 3) (hvalid : ∀ text ∈ boundTexts X term.text, '\x00' ∉ text.toList)
    (n : ℕ) :
    pageFrom X S value limit? n = some
      (offsetPage ((rankedRows X S term.text).map S.item) (normalizeLimit limit?).toNat n) := by
  have hbound : ((rankedRows X S term.text).map S.item).length < 2 ^ 31 := by
    rw [List.length_map]
    exact length_rankedRows_lt hshort
  have hsent : ((boundTexts X term.text).any fun text => text.toList.contains '\x00') = false := by
    simpa [List.any_eq_false] using hvalid
  have hcursor : max (n : ℤ) 0 = n := max_eq_left (Int.natCast_nonneg n)
  rw [pageFrom, searchSingle_eq h, hcursor, search, hsent, if_neg Bool.false_ne_true,
    Int.toNat_natCast]
  dsimp only
  rw [List.map_take, List.map_drop, paginateOffset_eq hbound normalizeLimit_bounds.2]
  rfl

theorem pageFrom_invalid (h : SearchTerm.tryNew X value .DEFAULT = .ok term)
    (hinvalid : ∃ text ∈ boundTexts X term.text, '\x00' ∈ text.toList) (cursor : ℤ) :
    pageFrom X S value limit? cursor = none := by
  have hsent : ((boundTexts X term.text).any fun text => text.toList.contains '\x00') = true := by
    simpa [List.any_eq_true] using hinvalid
  rw [pageFrom, searchSingle_eq h, search, if_pos hsent]
  rfl

/-- The cursors lead through all the rows. -/
theorem exists_follows_pageFrom (h : SearchTerm.tryNew X value .DEFAULT = .ok term)
    (hshort : term.text.length < 3)
    (hvalid : ∀ text ∈ boundTexts X term.text, '\x00' ∉ text.toList) :
    ∃ pages, Follows (pageFrom X S value limit?) 0 pages ∧
      pages.flatten = (rankedRows X S term.text).map S.item :=
  exists_follows_offset normalizeLimit_bounds.1 (fun n _ => pageFrom_eq h hshort hvalid n)
    (Nat.zero_le _)

end Pages

section Patterns
variable {C T D : Type} {X : TextOps D} {term name : String}

/-- The characters that are no letters in a pattern. -/
def IsSpecial (c : Char) : Prop := c = '%' ∨ c = '_' ∨ c = '\\'

/-- A pattern without special characters stands for itself. -/
theorem like_plain {p s : List Char} (h : ∀ c ∈ p, ¬IsSpecial c) :
    Admin.like (p ++ ['%']) s ↔ p <+: s := by
  induction p generalizing s with
  | nil =>
    rw [List.nil_append, Admin.like.eq_2, List.any_eq_true]
    exact ⟨fun _ => List.nil_prefix, fun _ => ⟨[], (List.mem_tails _ _).mpr List.nil_suffix, rfl⟩⟩
  | cons c p ih =>
    obtain ⟨hc, hp⟩ := List.forall_mem_cons.mp h
    obtain ⟨hpercent, hunderscore, hbackslash⟩ : c ≠ '%' ∧ c ≠ '_' ∧ c ≠ '\\' := by
      simpa [IsSpecial] using hc
    cases s with
    | nil =>
      have hend : Admin.like (c :: (p ++ ['%'])) [] = false :=
        Admin.like.eq_7 _ _ hpercent hunderscore fun _ _ hc' _ => hbackslash hc'
      simp [hend]
    | cons d s =>
      have hstep : Admin.like (c :: (p ++ ['%'])) (d :: s) =
          (decide (c = d) && Admin.like (p ++ ['%']) s) :=
        Admin.like.eq_8 _ _ _ _ hpercent hunderscore fun _ _ hc' _ => hbackslash hc'
      rw [List.cons_append, hstep, Bool.and_eq_true, decide_eq_true_eq, ih hp,
        List.cons_prefix_cons]

def IsPlain (X : TextOps D) (term : String) : Prop := ∀ c ∈ (X.lower term).toList, ¬IsSpecial c

theorem matchesPattern_of_plain (h : IsPlain X term) :
    MatchesPattern X term = StartsWith X term :=
  funext fun _ => propext (like_plain h)

end Patterns

section Claim
variable {C T D : Type} [LinearOrder D] (X : TextOps D) (S : Searchable C T)

/-- The pages from the first on end, and show the entities with a name that starts with the
term. -/
def SearchesPrefix (value term : String) (limit? : Option UInt32) : Prop :=
  ∃ pages rows, Follows (pageFrom X S value limit?) 0 pages ∧ pages.flatten = rows.map S.item ∧
    Lists X S term (StartsWith X term) rows

/-- The term can be sent to the database, and where it is not plain, nothing in the table tells it
from its pattern. -/
structure ReadAsText (term : String) : Prop where
  valid : ∀ text ∈ boundTexts X term, '\x00' ∉ text.toList
  matched : ¬IsPlain X term → ∀ r ∈ S.table.rows,
    (∃ name ∈ S.names r, MatchesPattern X term name) ↔ ∃ name ∈ S.names r, StartsWith X term name
  ordered : ¬IsPlain X term → ∀ r ∈ S.table.rows, ∀ s ∈ S.table.rows,
    Precedes X S term (MatchesPattern X term) r s → Precedes X S term (StartsWith X term) r s

end Claim

section Iff
variable {C T D : Type} [LinearOrder D] {X : TextOps D} {S : Searchable C T} {term : String}
  {rows : List (Row C)}

theorem Precedes.asymm {p : String → Prop} {r s : Row C} (h : Precedes X S term p r s) :
    ¬Precedes X S term p s r := by
  rintro ⟨e, d, he, hd, hlt⟩
  obtain ⟨d', e', hd', he', hlt'⟩ := h
  rw [hd'.unique hd, he'.unique he] at hlt'
  exact lt_asymm hlt hlt'

/-- What is listed in both ways is read in one. -/
theorem lists_startsWith_iff (hrows : Lists X S term (MatchesPattern X term) rows) :
    Lists X S term (StartsWith X term) rows ↔
      (∀ r ∈ S.table.rows, (∃ name ∈ S.names r, MatchesPattern X term name) ↔
        ∃ name ∈ S.names r, StartsWith X term name) ∧
      ∀ r ∈ S.table.rows, ∀ s ∈ S.table.rows, Precedes X S term (MatchesPattern X term) r s →
        Precedes X S term (StartsWith X term) r s := by
  constructor
  · intro hstarts
    constructor
    · intro r hr
      have hlisted := (hrows.mem r).symm.trans (hstarts.mem r)
      simpa [hr] using hlisted
    · intro r hr s hs hrs
      have hrlisted : r ∈ rows := by
        obtain ⟨d, -, hd, -, -⟩ := hrs
        exact (hrows.mem r).mpr ⟨hr, exists_least_iff.mp ⟨d, hd⟩⟩
      have hslisted : s ∈ rows := by
        obtain ⟨-, e, -, he, -⟩ := hrs
        exact (hrows.mem s).mpr ⟨hs, exists_least_iff.mp ⟨e, he⟩⟩
      -- one of the two stands before the other in the list that has both orders
      have hforward : rows.Pairwise fun r s => Precedes X S term (MatchesPattern X term) r s →
          Precedes X S term (StartsWith X term) r s := by
        refine hstarts.sorted.imp ?_
        intro r s h _
        exact h
      have hbackward : rows.Pairwise fun r s => Precedes X S term (MatchesPattern X term) s r →
          Precedes X S term (StartsWith X term) s r :=
        hrows.sorted.imp fun {_ _} h h' => absurd h' h.asymm
      exact List.Pairwise.forall_of_forall_of_flip (fun r _ h => absurd h h.asymm) hforward
        hbackward hrlisted hslisted hrs
  · rintro ⟨hmatched, hordered⟩
    refine ⟨fun r => ?_, hrows.nodup, ?_⟩
    · rw [hrows.mem]
      exact and_congr_right fun hr => hmatched r hr
    · refine hrows.sorted.imp_of_mem fun hr hs hrs => ?_
      exact hordered _ ((hrows.mem _).mp hr).1 _ ((hrows.mem _).mp hs).1 hrs

theorem items_inj {rows' : List (Row C)} (hrows : ∀ r ∈ rows, r ∈ S.table.rows)
    (hrows' : ∀ r ∈ rows', r ∈ S.table.rows) (h : rows.map S.item = rows'.map S.item) :
    rows = rows' := by
  refine eq_of_map_eq h fun r hr s hs heq => Table.eq_of_id (hrows r hr) (hrows' s hs) ?_
  rw [← S.itemId_item, heq, S.itemId_item]

end Iff

section Requests
variable {C T D : Type} [LinearOrder D] {X : TextOps D} {S : Searchable C T} {value : String}
  {term : SearchTerm} {limit? : Option UInt32}

theorem readAsText_of_searchesPrefix (h : SearchTerm.tryNew X value .DEFAULT = .ok term)
    (hshort : term.text.length < 3) (hsearch : SearchesPrefix X S value term.text limit?) :
    ReadAsText X S term.text := by
  obtain ⟨pages, rows, hpages, hflat, hrows⟩ := hsearch
  have hlists : Lists X S term.text _ (rankedRows X S term.text) := lists_rankedRows hshort
  have hvalid : ∀ text ∈ boundTexts X term.text, '\x00' ∉ text.toList := by
    intro text htext hnul
    have hfind : pageFrom X S value limit? 0 = none := pageFrom_invalid h ⟨text, htext, hnul⟩ 0
    cases hpages with
    | last hlast => simp [hfind] at hlast
    | next hnext _ => simp [hfind] at hnext
  obtain ⟨pages', hpages', hflat'⟩ : ∃ pages, Follows (pageFrom X S value limit?) 0 pages ∧ _ :=
    exists_follows_pageFrom h hshort hvalid
  rw [hpages.unique hpages', hflat'] at hflat
  obtain rfl := items_inj (fun r hr => ((hlists.mem r).mp hr).1)
    (fun r hr => ((hrows.mem r).mp hr).1) hflat
  obtain ⟨hmatched, hordered⟩ := (lists_startsWith_iff hlists).mp hrows
  exact ⟨hvalid, fun _ => hmatched, fun _ => hordered⟩

theorem searchesPrefix_of_readAsText (h : SearchTerm.tryNew X value .DEFAULT = .ok term)
    (hshort : term.text.length < 3) (hread : ReadAsText X S term.text) :
    SearchesPrefix X S value term.text limit? := by
  have hlists : Lists X S term.text _ (rankedRows X S term.text) := lists_rankedRows hshort
  obtain ⟨pages, hpages, hflat⟩ : ∃ pages, Follows (pageFrom X S value limit?) 0 pages ∧ _ :=
    exists_follows_pageFrom h hshort hread.valid
  refine ⟨pages, _, hpages, hflat, ?_⟩
  by_cases hplain : IsPlain X term.text
  · rw [matchesPattern_of_plain hplain] at hlists
    exact hlists
  · exact (lists_startsWith_iff hlists).mpr ⟨hread.matched hplain, hread.ordered hplain⟩

end Requests

/-- A term of one or two characters finds, for each kind, exactly the entities with a name that
starts with it, if it has no NUL, and no percent sign, underscore or backslash by which the names
tell its pattern from it. -/
theorem searches_prefix_iff {C T D : Type} [LinearOrder D] (X : TextOps D) (S : Searchable C T)
    (value : String) (term : SearchTerm) (limit? : Option UInt32)
    (h : SearchTerm.tryNew X value .DEFAULT = .ok term) (hshort : term.text.length < 3) :
    SearchesPrefix X S value term.text limit? ↔ ReadAsText X S term.text :=
  ⟨readAsText_of_searchesPrefix h hshort, searchesPrefix_of_readAsText h hshort⟩

section Example

/-- Names in lower case, equal or without anything in common. -/
def TextOps.plain : TextOps ℕ where
  lower := id
  isWhitespace c := c = ' '
  similarity s t := s = t
  similarityDistance s t := if s = t then 0 else 1
  lower_percent _ := rfl

def labelsCalled (names : List String) : Database :=
  let db : Database := default
  { db with labels := { db.labels with
      label := db.labels.label.insertAll (names.map fun name => ⟨name, none, .Day, none, .Day⟩) } }

def calledA : Searchable Label SimpleLabel :=
  labels (labelsCalled ["a"]) (by simp only [IsKey]; decide)

def fourLabels : Searchable Label SimpleLabel :=
  labels (labelsCalled ["ab", "a", "b", "ac"]) (by simp only [IsKey]; decide)

theorem tryNew_a : SearchTerm.tryNew TextOps.plain "a" .DEFAULT = .ok ⟨"a"⟩ := by decide

theorem tryNew_underscore : SearchTerm.tryNew TextOps.plain "_" .DEFAULT = .ok ⟨"_"⟩ := by decide

/-- An underscore finds every name. -/
theorem underscore_finds_all : ¬SearchesPrefix TextOps.plain calledA "_" "_" none := by
  intro hsearch
  have hread := readAsText_of_searchesPrefix tryNew_underscore (by decide) hsearch
  have hplain : ¬IsPlain TextOps.plain "_" := by
    intro h
    exact h '_' (by decide) (by simp [IsSpecial])
  have hmatched := hread.matched hplain ⟨1, "a", none, .Day, none, .Day⟩ (by decide)
  have hpattern : MatchesPattern TextOps.plain "_" "a" := by
    unfold MatchesPattern
    decide
  obtain ⟨name, hname, hstarts⟩ := hmatched.mp ⟨"a", by decide, hpattern⟩
  have hnames : calledA.names ⟨1, "a", none, .Day, none, .Day⟩ = ["a"] := by decide
  rw [hnames, List.mem_singleton] at hname
  subst hname
  unfold StartsWith at hstarts
  revert hstarts
  decide

/-- The letter finds the names that start with it, on two pages. -/
theorem letter_finds_prefix : SearchesPrefix TextOps.plain fourLabels "a" "a" (some 2) := by
  have hplain : IsPlain TextOps.plain "a" := by
    have hlower : (TextOps.plain.lower "a").toList = ['a'] := by decide
    intro c hc
    rw [hlower, List.mem_singleton] at hc
    subst hc
    simp [IsSpecial]
  have hvalid : ∀ text ∈ boundTexts TextOps.plain "a", '\x00' ∉ text.toList := by decide
  exact (searches_prefix_iff TextOps.plain fourLabels "a" ⟨"a"⟩ (some 2) tryNew_a (by decide)).mpr
    ⟨hvalid, fun h => absurd hplain h, fun h => absurd hplain h⟩

end Example

end Thcdb.Search
