import Thcdb.Catalog.ReleaseLoader

namespace Thcdb.Catalog.Release
open Relational

section Statement
variable (db : Database) (releases : List (Row Release))

/-- Nothing panics, and each track stands with the artists that are linked to it. -/
def TracksAttributed : Prop :=
  ∃ loaded, findManyImpl db releases = some loaded ∧ loaded.length = releases.length ∧
    ∀ (i : ℕ) (r : Row Release) (l : Loaded), releases[i]? = some r → loaded[i]? = some l →
      l.tracks.map (fun t => (t.id, t.artists)) = (db.releases.track.itemRows r.id).map fun t =>
        (t.id, (db.releases.trackArtist.items t.id).map (artistRef db))

def tracksBefore (i : ℕ) : ℕ := ((tracksLens db releases).take i).sum

/-- From the index of each release on, there are as many tracks as it has, and they have the
artists of its own tracks. -/
def SlicesMeet : Prop :=
  (∀ r ∈ releases, db.releases.track.itemRows r.id = []) ∨
    ∀ i len, (tracksLens db releases)[i]? = some len →
      i + len ≤ (tracksLens db releases).sum ∧ ∀ k < len,
        (allArtistIds db releases)[i + k]? =
          (allArtistIds db releases)[tracksBefore db releases i + k]?

/-- The slice that starts at the index of each release ends within the tracks of all. -/
def SlicesFit : Prop :=
  (∀ r ∈ releases, db.releases.track.itemRows r.id = []) ∨
    ∀ i len, (tracksLens db releases)[i]? = some len → i + len ≤ (tracksLens db releases).sum

/-- The same wherever each release stands. -/
def SlicesFitAnywhere : Prop :=
  (∀ r ∈ releases, db.releases.track.itemRows r.id = []) ∨
    ∀ r ∈ releases, (db.releases.track.itemRows r.id).length + releases.length ≤
      (tracksLens db releases).sum + 1

def ownArtistIds (r : Row Release) : List (List ℤ) :=
  (db.releases.track.itemRows r.id).map fun t => db.releases.trackArtist.items t.id

end Statement

section Offsets
variable {α β : Type} {f : α → List β} {l : List α} {x : α} {i : ℕ}

/-- What an element contributes to a list stands after what those before it contribute. -/
theorem take_drop_flatMap (h : l[i]? = some x) :
    ((l.flatMap f).drop ((l.map fun y => (f y).length).take i).sum).take (f x).length = f x := by
  induction i generalizing l with
  | zero =>
    cases l with
    | nil => cases h
    | cons y l =>
      obtain rfl := Option.some.inj h
      simp
  | succ i ih =>
    cases l with
    | nil => cases h
    | cons y l =>
      rw [List.flatMap_cons, List.map_cons, List.take_succ_cons, List.sum_cons, ← List.drop_drop,
        List.drop_left]
      exact ih h

theorem take_drop_eq_iff {xs : List β} {i j n : ℕ} : (xs.drop i).take n = (xs.drop j).take n ↔
    ∀ k < n, xs[i + k]? = xs[j + k]? := by
  rw [List.ext_getElem?_iff]
  refine forall_congr' fun k => ?_
  by_cases hk : k < n <;> simp [List.getElem?_drop, hk]

end Offsets

section Cuts
variable {db : Database} {releases : List (Row Release)} {r : Row Release} {i : ℕ}

theorem allArtistIds_eq : allArtistIds db releases = releases.flatMap (ownArtistIds db) := rfl

theorem tracksLens_eq :
    tracksLens db releases = releases.map fun r => (ownArtistIds db r).length := by
  simp [tracksLens, ownArtistIds]

theorem length_allArtistIds : (allArtistIds db releases).length = (tracksLens db releases).sum := by
  rw [allArtistIds_eq, tracksLens_eq, List.length_flatMap]

theorem allArtistIds_eq_nil :
    allArtistIds db releases = [] ↔ ∀ r ∈ releases, db.releases.track.itemRows r.id = [] := by
  simp [allArtistIds, List.flatMap_eq_nil_iff]

theorem getElem?_tracksLens {len : ℕ} : (tracksLens db releases)[i]? = some len ↔
    ∃ r, releases[i]? = some r ∧ (ownArtistIds db r).length = len := by
  rw [tracksLens_eq, List.getElem?_map, Option.map_eq_some_iff]

/-- The right slice for a release starts after the tracks of the releases before it. -/
theorem slice_tracksBefore (hr : releases[i]? = some r) :
    ((allArtistIds db releases).drop (tracksBefore db releases i)).take
      (ownArtistIds db r).length = ownArtistIds db r := by
  rw [allArtistIds_eq, tracksBefore, tracksLens_eq]
  exact take_drop_flatMap hr

/-- Each release gets what was cut out for it just when the cuts are the artists of its tracks. -/
theorem cutArtistIds_eq_own_iff :
    cutArtistIds (allArtistIds db releases) (tracksLens db releases) =
      some (releases.map (ownArtistIds db)) ↔ SlicesMeet db releases := by
  by_cases hne : allArtistIds db releases = []
  · have hnil := allArtistIds_eq_nil.mp hne
    refine iff_of_true ?_ (Or.inl hnil)
    rw [hne, cutArtistIds_nil, tracksLens, List.map_map]
    refine congrArg some (List.map_congr_left fun r hr => ?_)
    simp [ownArtistIds, hnil r hr]
  · rw [cutArtistIds_eq_some_iff hne, SlicesMeet, ← allArtistIds_eq_nil, length_allArtistIds]
    simp only [hne, false_or]
    constructor
    · rintro ⟨_, hall⟩ i len hlen
      obtain ⟨r, hr, rfl⟩ := getElem?_tracksLens.mp hlen
      obtain ⟨hle, hslice⟩ := hall i _ (ownArtistIds db r) hlen (by simp [hr])
      exact ⟨hle, take_drop_eq_iff.mp (hslice.trans (slice_tracksBefore hr).symm)⟩
    · intro hmeet
      refine ⟨by simp [tracksLens], ?_⟩
      intro i len cut hlen hcut
      obtain ⟨r, hr, rfl⟩ := getElem?_tracksLens.mp hlen
      obtain rfl : ownArtistIds db r = cut := by simpa [hr] using hcut
      obtain ⟨hle, hsame⟩ := hmeet i _ hlen
      exact ⟨hle, (take_drop_eq_iff.mpr hsame).trans (slice_tracksBefore hr)⟩

theorem length_of_mem_cuts {cuts : List (List (List ℤ))} {cut : List (List ℤ)}
    (h : cutArtistIds (allArtistIds db releases) (tracksLens db releases) = some cuts)
    (hr : releases[i]? = some r) (hcut : cuts[i]? = some cut) :
    cut.length = (db.releases.track.itemRows r.id).length := by
  by_cases hne : allArtistIds db releases = []
  · rw [hne, cutArtistIds_nil, Option.some.injEq] at h
    subst h
    obtain ⟨_, _, rfl⟩ := List.mem_map.mp (List.mem_of_getElem? hcut)
    rw [allArtistIds_eq_nil.mp hne r (List.mem_of_getElem? hr)]
    rfl
  · obtain ⟨_, hall⟩ := (cutArtistIds_eq_some_iff hne).mp h
    obtain ⟨hle, rfl⟩ := hall i _ cut (getElem?_tracksLens.mpr ⟨r, hr, rfl⟩) hcut
    rw [List.length_take, List.length_drop, ownArtistIds, List.length_map] at *
    omega

theorem exists_cutArtistIds_iff : (∃ cuts, cutArtistIds (allArtistIds db releases)
    (tracksLens db releases) = some cuts) ↔ SlicesFit db releases := by
  by_cases hne : allArtistIds db releases = []
  · rw [hne, cutArtistIds_nil]
    exact iff_of_true ⟨_, rfl⟩ (Or.inl (allArtistIds_eq_nil.mp hne))
  · rw [SlicesFit, ← allArtistIds_eq_nil, or_iff_right hne, ← length_allArtistIds]
    simp only [cutArtistIds_eq_some_iff hne]
    constructor
    · rintro ⟨cuts, hlength, hall⟩ i len hlen
      have hi : i < cuts.length := hlength ▸ (List.getElem?_eq_some_iff.mp hlen).1
      exact (hall i len _ hlen (List.getElem?_eq_getElem hi)).1
    · intro hfit
      refine ⟨(tracksLens db releases).zipIdx.map fun p =>
        ((allArtistIds db releases).drop p.2).take p.1, by simp, ?_⟩
      intro i len cut hlen hcut
      rw [List.getElem?_map, List.getElem?_zipIdx, hlen] at hcut
      simp only [Option.map_some, Nat.zero_add, Option.some.injEq] at hcut
      exact ⟨hfit i len hlen, hcut⟩

/-- The releases are read without a panic just when their slices fit. -/
theorem exists_findManyImpl_iff (hwf : Wf db) :
    (∃ loaded, findManyImpl db releases = some loaded) ↔ SlicesFit db releases := by
  rw [findManyImpl_eq hwf, ← exists_cutArtistIds_iff]
  simp only [Option.map_eq_some_iff]
  constructor
  · rintro ⟨_, cuts, hcuts, -⟩
    exact ⟨cuts, hcuts⟩
  · rintro ⟨cuts, hcuts⟩
    exact ⟨_, cuts, hcuts, rfl⟩

theorem sum_tracksLens_perm {rows : List (Row Release)} (h : rows.Perm releases) :
    (tracksLens db rows).sum = (tracksLens db releases).sum := (h.map _).sum_eq

/-- In some order a release stands last, and none stands farther back. -/
theorem slicesFit_perm_iff :
    (∀ rows, rows.Perm releases → SlicesFit db rows) ↔ SlicesFitAnywhere db releases := by
  constructor
  · intro hall
    by_cases hnone : ∀ r ∈ releases, db.releases.track.itemRows r.id = []
    · exact Or.inl hnone
    · refine Or.inr fun r hr => ?_
      obtain ⟨front, back, rfl⟩ := List.append_of_mem hr
      have hperm : (front ++ back ++ [r]).Perm (front ++ r :: back) := by
        rw [List.append_assoc]
        exact (List.perm_append_singleton r back).append_left front
      rcases hall _ hperm with hempty | hfit
      · exact absurd (fun s hs => hempty s (hperm.mem_iff.mpr hs)) hnone
      · have hlast : (tracksLens db (front ++ back ++ [r]))[(front ++ back).length]? =
            some (db.releases.track.itemRows r.id).length := by
          rw [tracksLens, List.getElem?_map, List.getElem?_concat_length]
          rfl
        have hle := hfit _ _ hlast
        rw [sum_tracksLens_perm hperm] at hle
        simp only [List.length_append, List.length_cons] at hle ⊢
        omega
  · rintro (hnone | hall) rows hperm
    · exact Or.inl fun r hr => hnone r (hperm.mem_iff.mp hr)
    · refine Or.inr fun i len hlen => ?_
      rw [tracksLens, List.getElem?_map] at hlen
      obtain ⟨r, hr, rfl⟩ := Option.map_eq_some_iff.mp hlen
      have hi := (List.getElem?_eq_some_iff.mp hr).1
      have hle := hall r (hperm.mem_iff.mp (List.mem_of_getElem? hr))
      rw [hperm.length_eq] at hi
      rw [sum_tracksLens_perm hperm]
      omega

end Cuts

section Reading
variable {db : Database} {releases : List (Row Release)} {r : Row Release} {i : ℕ}

theorem artistRef_injective : Function.Injective (artistRef db) := by
  intro id other h
  exact congrArg ReleaseArtist.id h

/-- Tracks that stand with as many lists stand with their own just when these are the lists. -/
theorem map_zip_trackOf {rows : List (Row DiscTrack)} {cut : List (List ℤ)}
    (hlength : cut.length = rows.length) :
    ((rows.zip cut).map fun p => trackOf db p.1 p.2).map (fun t => (t.id, t.artists)) =
        rows.map (fun t => (t.id, (db.releases.trackArtist.items t.id).map (artistRef db))) ↔
      cut = rows.map fun t => db.releases.trackArtist.items t.id := by
  induction rows generalizing cut with
  | nil => simp [List.length_eq_zero_iff.mp hlength]
  | cons t rows ih =>
    cases cut with
    | nil => cases hlength
    | cons ids cut =>
      have hinj : ids.map (artistRef db) =
          (db.releases.trackArtist.items t.id).map (artistRef db) ↔
            ids = db.releases.trackArtist.items t.id :=
        (List.map_injective_iff.mpr artistRef_injective).eq_iff
      simp only [List.zip_cons_cons, List.map_cons, List.cons.injEq, ih (Nat.succ.inj hlength)]
      simp [trackOf, hinj]

/-- The condition of the slices is the condition of the whole reading. -/
theorem tracksAttributed_iff_slicesMeet (hwf : Wf db) :
    TracksAttributed db releases ↔ SlicesMeet db releases := by
  rw [← cutArtistIds_eq_own_iff]
  constructor
  · rintro ⟨loaded, hload, _, hall⟩
    rw [findManyImpl_eq hwf] at hload
    obtain ⟨cuts, hcuts, rfl⟩ := Option.map_eq_some_iff.mp hload
    rw [hcuts, Option.some.injEq]
    have hlength : cuts.length = releases.length := by
      rw [length_cutArtistIds hcuts, tracksLens, List.length_map]
    refine List.ext_getElem (by rw [hlength, List.length_map]) ?_
    intro i hi hi'
    rw [hlength] at hi
    have hr := List.getElem?_eq_getElem hi
    have hcut := List.getElem?_eq_getElem (hlength ▸ hi : i < cuts.length)
    have htracks := hall i _ (assemble db releases[i] (cuts[i]?.getD [])) hr (by simp [hr])
    rw [hcut, Option.getD_some] at htracks
    rw [List.getElem_map]
    exact (map_zip_trackOf (length_of_mem_cuts hcuts hr hcut)).mp htracks
  · intro hcuts
    refine ⟨_, by rw [findManyImpl_eq hwf, hcuts]; rfl, by simp, ?_⟩
    intro i r l hr hl
    obtain rfl : assemble db r (ownArtistIds db r) = l := by simpa [hr] using hl
    exact (map_zip_trackOf (by simp [ownArtistIds])).mpr rfl

/-- One release alone gets the artists of its own tracks. -/
theorem findManyImpl_singleton (hwf : Wf db) :
    findManyImpl db [r] = some [assemble db r (ownArtistIds db r)] := by
  have hmeet : SlicesMeet db [r] := by
    refine Or.inr ?_
    intro i len hlen
    have hi : i = 0 := by
      simpa [tracksLens] using (List.getElem?_eq_some_iff.mp hlen).1
    subst hi
    obtain rfl : (db.releases.track.itemRows r.id).length = len := by
      simpa [tracksLens] using hlen
    simp [tracksLens, tracksBefore]
  rw [findManyImpl_eq hwf, cutArtistIds_eq_own_iff.mpr hmeet]
  rfl

end Reading

/-- Two releases, with two tracks and with one, each track by an artist of its own. -/
def twoReleases : Database :=
  let db : Database := default
  let artist (name : String) : Artist :=
    ⟨name, .Solo, none, none, none, none, none, .none, .none⟩
  let release (title : String) : Release := ⟨title, .Album, none, .Day, none, .Day, none, .Day⟩
  let track (discId : ℤ) : DiscTrack := ⟨⟨1, none, none, none⟩, discId⟩
  { db with
    songs := { db.songs with song := db.songs.song.insertAll [⟨"s"⟩] }
    artists := { db.artists with
      artist := db.artists.artist.insertAll [artist "a", artist "b", artist "c"] }
    releases := { db.releases with
      release := db.releases.release.insertAll [release "p", release "q"]
      disc := db.releases.disc.insertAll [⟨1, none⟩, ⟨2, none⟩]
      track := db.releases.track.insertAll [⟨1, track 1⟩, ⟨1, track 1⟩, ⟨2, track 2⟩]
      trackArtist := db.releases.trackArtist.insertAll [⟨1, 1⟩, ⟨2, 2⟩, ⟨3, 3⟩] } }

/-- The track of the second release is read with the artist of a track of the first. -/
theorem tracksAttributed_two_releases :
    ¬∀ db releases, Wf db → TracksAttributed db releases := by
  intro hclaim
  have hwf : Wf twoReleases := by constructor <;> decide
  obtain ⟨loaded, hload, _, hall⟩ := hclaim twoReleases twoReleases.releases.release.rows hwf
  obtain rfl := Option.some.inj hload
  have htracks := hall 1 _ _ rfl rfl
  revert htracks
  decide

/-- The other way round, the slices start where the tracks do. -/
theorem tracksAttributed_one_track_first :
    TracksAttributed twoReleases twoReleases.releases.release.rows.reverse := by
  have hwf : Wf twoReleases := by constructor <;> decide
  refine (tracksAttributed_iff_slicesMeet hwf).mpr (Or.inr ?_)
  intro i len hlen
  have hi : i < 2 := (List.getElem?_eq_some_iff.mp hlen).1
  obtain rfl | rfl : i = 0 ∨ i = 1 := by omega
  · obtain rfl : 1 = len := Option.some.inj hlen
    decide
  · obtain rfl : 2 = len := Option.some.inj hlen
    decide

end Thcdb.Catalog.Release
