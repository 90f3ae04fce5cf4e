import Thcdb.Catalog.Snapshot

namespace Thcdb.Catalog
open Corrections Relational Json

section Values

variable {α : Type} {f : α → Value} {o o' : Option α}

@[simp] theorem canonical_null : Canonical .null := .leaf (by simp)

@[simp] theorem canonical_bool {b : Bool} : Canonical (.bool b) := .leaf (by simp)

@[simp] theorem canonical_num {n : ℤ} : Canonical (.num n) := .leaf (by simp)

@[simp] theorem canonical_str {s : String} : Canonical (.str s) := .leaf (by simp)

@[simp] theorem canonical_date {d : ℤ} : Canonical (.date d) := .leaf (by simp)

@[simp] theorem canonical_arr {vs : List Value} : Canonical (.arr vs) := .leaf (by simp)

@[simp] theorem canonical_optional (h : ∀ a, Canonical (f a)) : Canonical (optional f o) := by
  cases o <;> simp [optional, h]

@[simp] theorem canonical_dateWithPrecision {value : Option NaiveDate}
    {precision : Option DatePrecision} : Canonical (dateWithPrecision value precision) := by
  unfold dateWithPrecision
  split
  · exact canonical_object (by simp)
  · simp

@[simp] theorem canonical_locationValue {l : Location} : Canonical (locationValue l) := by
  unfold locationValue
  split
  · simp
  · exact canonical_object (by simp)

@[simp] theorem ArtistType.canonical_serialize {t : ArtistType} : Canonical t.serialize := by
  cases t <;> simp [ArtistType.serialize]

@[simp] theorem ReleaseType.canonical_serialize {t : ReleaseType} : Canonical t.serialize := by
  cases t <;> simp [ReleaseType.serialize]

@[simp] theorem TagType.canonical_serialize {t : TagType} : Canonical t.serialize := by
  cases t <;> simp [TagType.serialize]

theorem optional_inj (hf : f.Injective) (hnull : ∀ a, f a ≠ .null) :
    optional f o = optional f o' ↔ o = o' := by
  cases o with
  | none =>
    cases o' with
    | none => simp
    | some b => simp [optional, (hnull b).symm]
  | some a =>
    cases o' with
    | none => simp [optional, hnull a]
    | some b => simpa [optional] using hf.eq_iff

@[simp] theorem optional_str_inj {o o' : Option String} :
    optional .str o = optional .str o' ↔ o = o' :=
  optional_inj (fun _ _ h => Value.str.inj h) (by simp)

@[simp] theorem optional_num_inj {o o' : Option ℤ} : optional .num o = optional .num o' ↔ o = o' :=
  optional_inj (fun _ _ h => Value.num.inj h) (by simp)

@[simp] theorem map_num_inj {l l' : List ℤ} : l.map Value.num = l'.map Value.num ↔ l = l' :=
  (List.map_injective_iff.mpr fun _ _ h => Value.num.inj h).eq_iff

@[simp] theorem map_str_inj {l l' : List String} : l.map Value.str = l'.map Value.str ↔ l = l' :=
  (List.map_injective_iff.mpr fun _ _ h => Value.str.inj h).eq_iff

@[simp] theorem ArtistType.serialize_inj {t t' : ArtistType} :
    t.serialize = t'.serialize ↔ t = t' := by
  cases t <;> cases t' <;> simp [ArtistType.serialize]

@[simp] theorem ReleaseType.serialize_inj {t t' : ReleaseType} :
    t.serialize = t'.serialize ↔ t = t' := by
  cases t <;> cases t' <;> simp [ReleaseType.serialize]

@[simp] theorem TagType.serialize_inj {t t' : TagType} : t.serialize = t'.serialize ↔ t = t' := by
  cases t <;> cases t' <;> simp [TagType.serialize]

@[simp] theorem TagRelationType.serialize_inj {t t' : TagRelationType} :
    t.serialize = t'.serialize ↔ t = t' := by
  cases t <;> cases t' <;> simp [TagRelationType.serialize]

theorem datePrecisionString_inj {p p' : DatePrecision} :
    datePrecisionString p = datePrecisionString p' ↔ p = p' := by
  cases p <;> cases p' <;> simp [datePrecisionString]

@[simp] theorem map_localizedName_inj {l l' : List LocalizedName} :
    l.map LocalizedName.value = l'.map LocalizedName.value ↔ l = l' := by
  refine (List.map_injective_iff.mpr ?_).eq_iff
  rintro ⟨language, name⟩ ⟨language', name'⟩ h
  simpa [LocalizedName.value, object_inj, Fields.keys] using h

@[simp] theorem map_localizedTitle_inj {l l' : List LocalizedTitle} :
    l.map LocalizedTitle.value = l'.map LocalizedTitle.value ↔ l = l' := by
  refine (List.map_injective_iff.mpr ?_).eq_iff
  rintro ⟨language, title⟩ ⟨language', title'⟩ h
  simpa [LocalizedTitle.value, object_inj, Fields.keys] using h

theorem dateWithPrecision_inj {value value' : NaiveDate} {p p' : DatePrecision} :
    dateWithPrecision (some value) (some p) = dateWithPrecision (some value') (some p') ↔
      value = value' ∧ p = p' := by
  simp [dateWithPrecision, object_inj, Fields.keys, datePrecisionString_inj]

/-- Of a date that was not given, nothing is stored but the default precision. -/
theorem dateWithPrecision_default {d d' : Option DateWithPrecision} :
    dateWithPrecision (d.map DateWithPrecision.value) (some (precisionOr d)) =
      dateWithPrecision (d'.map DateWithPrecision.value) (some (precisionOr d')) ↔ d = d' := by
  cases d with
  | none =>
    cases d' with
    | none => simp
    | some d' => simp [dateWithPrecision, object]
  | some d =>
    cases d' with
    | none => simp [dateWithPrecision, object]
    | some d' =>
      cases d
      cases d'
      simp only [Option.map_some, precisionOr, Option.getD_some, dateWithPrecision_inj]
      simp

theorem dateWithPrecision_given {d d' : Option DateWithPrecision} :
    dateWithPrecision (d.map DateWithPrecision.value) (d.map DateWithPrecision.precision) =
      dateWithPrecision (d'.map DateWithPrecision.value) (d'.map DateWithPrecision.precision) ↔
        d = d' := by
  cases d with
  | none =>
    cases d' with
    | none => simp
    | some d' => simp [dateWithPrecision, object]
  | some d =>
    cases d' with
    | none => simp [dateWithPrecision, object]
    | some d' =>
      cases d
      cases d'
      simp only [Option.map_some, dateWithPrecision_inj]
      simp

theorem locationValue_inj {l l' : Location} : locationValue l = locationValue l' ↔ l = l' := by
  refine ⟨?_, congrArg _⟩
  intro h
  unfold locationValue at h
  split at h
  · next hnone =>
    split at h
    · next hnone' =>
      cases l
      cases l'
      simp_all
    · cases h
  · split at h
    · cases h
    · cases l
      cases l'
      simpa [object_inj, Fields.keys] using h

@[simp] theorem map_name_inj {name : α → String} {l l' : List α} :
    l.map (fun x => Value.str (name x)) = l'.map (fun x => Value.str (name x)) ↔
      l.map name = l'.map name := by
  rw [← map_str_inj, List.map_map, List.map_map]
  rfl

/-- Names that were all given in one way are settled by their texts. -/
theorem eq_of_names (given : String → α) {name : α → String} (hgiven : ∀ s, name (given s) = s)
    {l l' : List α} {names names' : List String} (hl : (l : Multiset α) = names.map given)
    (hl' : (l' : Multiset α) = names'.map given) (h : l.map name = l'.map name) : l = l' := by
  have hall : ∀ {l : List α} {names : List String}, (l : Multiset α) = names.map given →
      (l.map name).map given = l := by
    intro l names hl
    rw [List.map_map]
    conv_rhs => rw [← List.map_id l]
    apply List.map_congr_left
    intro x hx
    obtain ⟨s, -, rfl⟩ := List.mem_map.mp ((Multiset.coe_eq_coe.mp hl).subset hx)
    simp [hgiven]
  rw [← hall hl, ← hall hl', h]

end Values

section Snapshots

variable {α : Type} {o : Option α} {a : α} {fields : α → Fields} {v : Value}

/-- A snapshot is an object of a row, if there is one. -/
theorem canonical_of_bind (hfields : ∀ a, ∀ p ∈ fields a, Canonical p.2)
    (hv : (o.bind fun a => some (object (fields a))) = some v) : Canonical v := by
  obtain ⟨a, -, hv⟩ := Option.bind_eq_some_iff.mp hv
  obtain rfl := Option.some.inj hv
  exact canonical_object (hfields a)

theorem exists_bind (ho : o = some a) :
    ∃ v, (o.bind fun a => some (object (fields a))) = some v :=
  ⟨_, by rw [ho, Option.bind_some]⟩

end Snapshots

variable {db q q' : Database} {h h' : ℤ} {v v' : Value}

namespace Label

variable {a b : NewLabel}

theorem canonical_snapshot (hv : snapshot q h = some v) : Canonical v :=
  canonical_of_bind (by simp) hv

theorem snapshot_eq_some {row : Label} (hrow : db.labels.history.findById h = some row) :
    ∃ v, snapshot db h = some v :=
  exists_bind hrow

theorem content_of_snapshot (ha : stored db h = some (content a))
    (hb : stored db h' = some (content b)) (hq : Matches db h q) (hq' : Matches db h' q')
    (hv : snapshot q h = some v) (hv' : snapshot q' h' = some v) : content a = content b := by
  obtain ⟨row, hrow, hca⟩ := Option.map_eq_some_iff.mp ha
  obtain ⟨row', hrow', hcb⟩ := Option.map_eq_some_iff.mp hb
  obtain rfl : row = a.columns := congrArg Content.label hca
  obtain rfl : row' = b.columns := congrArg Content.label hcb
  unfold snapshot at hv hv'
  rw [hq.history, hrow] at hv
  rw [hq'.history, hrow'] at hv'
  have heq := Option.some.inj (hv.trans hv'.symm)
  simp [object_inj, Fields.keys, NewLabel.columns, dateWithPrecision_default] at heq
  obtain ⟨hname, hfounded, hdissolved, hfounders, hlocalizedNames⟩ := heq
  have hcolumns : a.columns = b.columns := by
    simp [NewLabel.columns, hname, hfounded, hdissolved]
  rw [← hca, ← hcb, hcolumns, ← coe_orderBy _ hq.founders, hfounders, coe_orderBy _ hq'.founders,
    ← coe_orderBy _ hq.localizedNames, hlocalizedNames, coe_orderBy _ hq'.localizedNames]

end Label

namespace Song

variable {a b : NewSong}

@[simp] theorem map_creditValue_inj {l l' : List SongCredit} :
    l.map creditValue = l'.map creditValue ↔ l = l' := by
  refine (List.map_injective_iff.mpr ?_).eq_iff
  rintro ⟨artist, role⟩ ⟨artist', role'⟩ h
  simpa [creditValue, object_inj, Fields.keys] using h

@[simp] theorem map_relationValue_inj {l l' : List NewSongRelation} :
    l.map relationValue = l'.map relationValue ↔ l = l' := by
  refine (List.map_injective_iff.mpr ?_).eq_iff
  rintro ⟨song, type, description⟩ ⟨song', type', description'⟩ h
  simpa [relationValue, object_inj, Fields.keys] using h

theorem canonical_snapshot (hv : snapshot q h = some v) : Canonical v :=
  canonical_of_bind (by simp) hv

theorem snapshot_eq_some {row : Song} (hrow : db.songs.history.findById h = some row) :
    ∃ v, snapshot db h = some v :=
  exists_bind hrow

theorem content_of_snapshot (ha : stored db h = some (content a))
    (hb : stored db h' = some (content b)) (hq : Matches db h q) (hq' : Matches db h' q')
    (hv : snapshot q h = some v) (hv' : snapshot q' h' = some v) : content a = content b := by
  obtain ⟨row, hrow, hca⟩ := Option.map_eq_some_iff.mp ha
  obtain ⟨row', hrow', hcb⟩ := Option.map_eq_some_iff.mp hb
  unfold snapshot at hv hv'
  rw [hq.history, hrow] at hv
  rw [hq'.history, hrow'] at hv'
  have heq := Option.some.inj (hv.trans hv'.symm)
  simp [object_inj, Fields.keys] at heq
  obtain ⟨htitle, hartists, hcredits, htitles, hlanguages, hrelations⟩ := heq
  have hcolumns : row = row' := congrArg Song.mk htitle
  rw [← hca, ← hcb, hcolumns, ← coe_orderBy _ hq.artists, hartists, coe_orderBy _ hq'.artists,
    ← coe_orderById hq.credits, hcredits, coe_orderById hq'.credits,
    ← coe_orderById hq.localizedTitles, htitles, coe_orderById hq'.localizedTitles,
    ← coe_orderBy _ hq.languages, hlanguages, coe_orderBy _ hq'.languages,
    ← coe_orderBy _ hq.relations, hrelations, coe_orderBy _ hq'.relations]

end Song

namespace Tag

variable {a b : NewTag}

@[simp] theorem map_relationValue_inj {l l' : List TagRelation} :
    l.map relationValue = l'.map relationValue ↔ l = l' := by
  refine (List.map_injective_iff.mpr ?_).eq_iff
  rintro ⟨tag, type⟩ ⟨tag', type'⟩ h
  simpa [relationValue, object_inj, Fields.keys] using h

theorem canonical_snapshot (hv : snapshot q h = some v) : Canonical v :=
  canonical_of_bind (by simp) hv

theorem snapshot_eq_some {row : Tag} (hrow : db.tags.history.findById h = some row) :
    ∃ v, snapshot db h = some v :=
  exists_bind hrow

theorem content_of_snapshot (ha : stored db h = some (content a))
    (hb : stored db h' = some (content b)) (hq : Matches db h q) (hq' : Matches db h' q')
    (hv : snapshot q h = some v) (hv' : snapshot q' h' = some v) : content a = content b := by
  obtain ⟨row, hrow, hca⟩ := Option.map_eq_some_iff.mp ha
  obtain ⟨row', hrow', hcb⟩ := Option.map_eq_some_iff.mp hb
  have hnames : (db.tags.alternativeNameHistory.items h : Multiset TagAlternativeName) = _ :=
    congrArg Content.alternativeNames hca
  have hnames' : (db.tags.alternativeNameHistory.items h' : Multiset TagAlternativeName) = _ :=
    congrArg Content.alternativeNames hcb
  unfold snapshot at hv hv'
  rw [hq.history, hrow] at hv
  rw [hq'.history, hrow'] at hv'
  have heq := Option.some.inj (hv.trans hv'.symm)
  simp [object_inj, Fields.keys] at heq
  obtain ⟨hname, htype, hshort, hdescription, htexts, hrelations⟩ := heq
  have hcolumns : row = row' := by
    cases row
    cases row'
    simp only at hname htype hshort hdescription
    rw [hname, htype, hshort, hdescription]
  have hlists := eq_of_names TagAlternativeName.given (fun _ => rfl)
    ((coe_orderById hq.alternativeNames).trans hnames)
    ((coe_orderById hq'.alternativeNames).trans hnames') htexts
  rw [← hca, ← hcb, hcolumns, ← coe_orderById hq.alternativeNames, hlists,
    coe_orderById hq'.alternativeNames, ← coe_orderBy _ hq.relations, hrelations,
    coe_orderBy _ hq'.relations]

end Tag

namespace Event

variable {a b : NewEvent}

theorem canonical_snapshot (hv : snapshot q h = some v) : Canonical v :=
  canonical_of_bind (by simp) hv

theorem snapshot_eq_some {row : Event} (hrow : db.events.history.findById h = some row) :
    ∃ v, snapshot db h = some v :=
  exists_bind hrow

theorem content_of_snapshot (ha : stored db h = some (content a))
    (hb : stored db h' = some (content b)) (hq : Matches db h q) (hq' : Matches db h' q')
    (hv : snapshot q h = some v) (hv' : snapshot q' h' = some v) : content a = content b := by
  obtain ⟨row, hrow, hca⟩ := Option.map_eq_some_iff.mp ha
  obtain ⟨row', hrow', hcb⟩ := Option.map_eq_some_iff.mp hb
  obtain rfl : row = a.columns := congrArg Content.event hca
  obtain rfl : row' = b.columns := congrArg Content.event hcb
  have hnames : (db.events.alternativeNameHistory.items h : Multiset EventAlternativeName) = _ :=
    congrArg Content.alternativeNames hca
  have hnames' : (db.events.alternativeNameHistory.items h' : Multiset EventAlternativeName) = _ :=
    congrArg Content.alternativeNames hcb
  unfold snapshot at hv hv'
  rw [hq.history, hrow] at hv
  rw [hq'.history, hrow'] at hv'
  have heq := Option.some.inj (hv.trans hv'.symm)
  simp [object_inj, Fields.keys, NewEvent.columns, dateWithPrecision_default,
    locationValue_inj] at heq
  obtain ⟨hname, hdescription, hshort, hstart, hend, hlocation, htexts⟩ := heq
  have hcolumns : a.columns = b.columns := by
    simp [NewEvent.columns, hname, hdescription, hshort, hstart, hend, hlocation]
  have hlists := eq_of_names EventAlternativeName.given (fun _ => rfl)
    ((coe_orderById hq.alternativeNames).trans hnames)
    ((coe_orderById hq'.alternativeNames).trans hnames') htexts
  rw [← hca, ← hcb, hcolumns, ← coe_orderById hq.alternativeNames, hlists,
    coe_orderById hq'.alternativeNames]

end Event

namespace CreditRole

variable {a b : NewCreditRole}

theorem canonical_snapshot (hv : snapshot q h = some v) : Canonical v :=
  canonical_of_bind (by simp) hv

theorem snapshot_eq_some {row : CreditRole} (hrow : db.creditRoles.history.findById h = some row) :
    ∃ v, snapshot db h = some v :=
  exists_bind hrow

/-- The short description is not in the snapshot. -/
theorem snapshot_eq_iff (ha : stored db h = some (content a)) (hb : stored db h' = some (content b))
    (hq : Matches db h q) (hq' : Matches db h' q') (hv : snapshot q h = some v)
    (hv' : snapshot q' h' = some v') :
    v = v' ↔ a.columns.name = b.columns.name ∧ a.columns.description = b.columns.description ∧
      (content a).superRoles = (content b).superRoles := by
  obtain ⟨row, hrow, hca⟩ := Option.map_eq_some_iff.mp ha
  obtain ⟨row', hrow', hcb⟩ := Option.map_eq_some_iff.mp hb
  obtain rfl : row = a.columns := congrArg Content.creditRole hca
  obtain rfl : row' = b.columns := congrArg Content.creditRole hcb
  unfold snapshot at hv hv'
  rw [hq.history, hrow] at hv
  rw [hq'.history, hrow'] at hv'
  obtain rfl := Option.some.inj hv
  obtain rfl := Option.some.inj hv'
  have hroles : orderBy (fun superId => superId) (q.creditRoles.inheritanceHistory.itemRows h) =
        orderBy (fun superId => superId) (q'.creditRoles.inheritanceHistory.itemRows h') ↔
      (content a).superRoles = (content b).superRoles := by
    rw [← hca, ← hcb, ← coe_orderBy (fun superId => superId) hq.inheritances,
      ← coe_orderBy (fun superId => superId) hq'.inheritances, Multiset.coe_eq_coe]
    refine ⟨fun heq => heq ▸ List.Perm.refl _, fun hperm => ?_⟩
    exact List.Perm.eq_of_pairwise (fun i j _ _ hij hji => le_antisymm hij hji) map_key_pairwise
      map_key_pairwise hperm
  simp [object_inj, Fields.keys, hroles]

end CreditRole

namespace SongLyrics

variable {a b : NewSongLyrics}

theorem canonical_snapshot (hv : snapshot q h = some v) : Canonical v :=
  canonical_of_bind (by simp) hv

theorem snapshot_eq_some {row : SongLyrics} (hrow : db.songLyrics.history.findById h = some row) :
    ∃ v, snapshot db h = some v :=
  exists_bind hrow

/-- The song is not in the snapshot. -/
theorem snapshot_eq_iff (ha : db.songLyrics.history.findById h = some a.columns)
    (hb : db.songLyrics.history.findById h' = some b.columns) (hq : Matches db h q)
    (hq' : Matches db h' q') (hv : snapshot q h = some v) (hv' : snapshot q' h' = some v') :
    v = v' ↔ a.languageId = b.languageId ∧ a.content = b.content ∧ a.isMain = b.isMain := by
  unfold snapshot at hv hv'
  rw [hq, ha] at hv
  rw [hq', hb] at hv'
  obtain rfl := Option.some.inj hv
  obtain rfl := Option.some.inj hv'
  simp [object_inj, Fields.keys, NewSongLyrics.columns]

end SongLyrics

section Identities

variable {I J : Type} {rows : List (Row I)} {rows' : List (Row J)}

/-- Lists of values that show different identities are equal only if there is nothing to show. -/
theorem eq_nil_of_ids {f : Row I → Value} {g : Row J → Value} (h : rows.map f = rows'.map g)
    (hid : ∀ r s, f r = g s → r.id = s.id) (hne : ∀ r ∈ rows, ∀ s ∈ rows', r.id ≠ s.id) :
    rows = [] ∧ rows' = [] := by
  cases rows with
  | nil => exact ⟨rfl, (List.map_eq_nil_iff.mp h.symm)⟩
  | cons r rows =>
    cases rows' with
    | nil => cases h
    | cons s rows' =>
      have heq := hid r s (List.cons.inj h).1
      exact absurd heq (hne r List.mem_cons_self s List.mem_cons_self)

end Identities

namespace Artist

variable {a b : NewArtist}

theorem canonical_snapshot (hv : snapshot q h = some v) : Canonical v :=
  canonical_of_bind (by simp) hv

theorem snapshot_eq_some {row : Artist} (hrow : db.artists.history.findById h = some row) :
    ∃ v, snapshot db h = some v :=
  exists_bind hrow

theorem optional_names_inj {o o' : Option (List String)} :
    optional (fun names => Value.arr (names.map .str)) o =
      optional (fun names => Value.arr (names.map .str)) o' ↔ o = o' :=
  optional_inj (fun _ _ heq => map_str_inj.mp (Value.arr.inj heq)) (by simp)

theorem membershipValue_id {r s : Row ℤ} (heq : membershipValue q r = membershipValue q' s) :
    r.id = s.id := by
  simp [membershipValue, object_inj, Fields.keys] at heq
  exact heq.1

/-- The identities of memberships are in the snapshot: without a difference there are none. -/
theorem content_of_snapshot (hne : h ≠ h') (ha : stored db h = some (content a))
    (hb : stored db h' = some (content b)) (hq : Matches db h q) (hq' : Matches db h' q')
    (hv : snapshot q h = some v) (hv' : snapshot q' h' = some v) : content a = content b := by
  obtain ⟨row, hrow, hca⟩ := Option.map_eq_some_iff.mp ha
  obtain ⟨row', hrow', hcb⟩ := Option.map_eq_some_iff.mp hb
  obtain rfl : row = a.columns := congrArg Content.artist hca
  obtain rfl : row' = b.columns := congrArg Content.artist hcb
  unfold snapshot at hv hv'
  rw [hq.history, hrow] at hv
  rw [hq'.history, hrow'] at hv'
  have heq := Option.some.inj (hv.trans hv'.symm)
  simp [object_inj, Fields.keys, NewArtist.columns, dateWithPrecision_given, locationValue_inj,
    optional_names_inj] at heq
  obtain ⟨hname, htype, htext, hstart, hend, hstartLocation, hcurrentLocation, hlinks, haliases,
    hnames, hmemberships⟩ := heq
  have hcolumns : a.columns = b.columns := by
    simp [NewArtist.columns, hname, htype, htext, hstart, hend, hstartLocation, hcurrentLocation]
  -- rows of two histories never have one identity, and the snapshot shows identities
  obtain ⟨hnil, hnil'⟩ := eq_nil_of_ids hmemberships (fun _ _ => membershipValue_id) (by
    intro r hr s hs
    exact itemRows_disjoint hne (hq.memberships.subset (sortById_perm.subset hr))
      (hq'.memberships.subset (sortById_perm.subset hs)))
  have hrows : db.artists.membershipHistory.itemRows h = [] := by
    have hlist := (sortById_perm.trans hq.memberships).symm
    rw [hnil] at hlist
    exact hlist.eq_nil
  have hrows' : db.artists.membershipHistory.itemRows h' = [] := by
    have hlist := (sortById_perm.trans hq'.memberships).symm
    rw [hnil'] at hlist
    exact hlist.eq_nil
  rw [← hca, ← hcb, hcolumns, ← coe_orderBy _ hq.aliases, haliases, coe_orderBy _ hq'.aliases,
    ← coe_orderById hq.links, hlinks, coe_orderById hq'.links, ← coe_orderById hq.localizedNames,
    hnames, coe_orderById hq'.localizedNames]
  simp [membershipHistoriesOf, historyMemberships, hrows, hrows']

end Artist

namespace Release

variable {a b : NewRelease}

theorem canonical_snapshot (hv : snapshot q h = some v) : Canonical v :=
  canonical_of_bind (by simp) hv

theorem snapshot_eq_some {row : Release} (hrow : db.releases.history.findById h = some row) :
    ∃ v, snapshot db h = some v :=
  exists_bind hrow

/-- The artists that were loaded at once go back to their discs. -/
theorem takeLengths_map {α β : Type} (f : α → β) (lists : List (List α)) :
    takeLengths (lists.map List.length) (lists.flatten.map f) = lists.map (List.map f) := by
  induction lists with
  | nil => rfl
  | cons l lists ih =>
    rw [List.map_cons, List.flatten_cons, List.map_append, takeLengths, ← List.length_map (f := f),
      List.take_left, List.drop_left, List.map_cons, ih]

theorem discValues_eq :
    discValues db h = (sortById (db.releases.discHistory.itemRows h)).map fun disc =>
      discValue disc (discTracks db.releases.trackHistory disc.id)
        ((discTracks db.releases.trackHistory disc.id).map fun track =>
          db.releases.trackArtistHistory.items track.id) := by
  unfold discValues
  simp only [takeLengths_map]
  generalize sortById (db.releases.discHistory.itemRows h) = discs
  induction discs with
  | nil => rfl
  | cons disc discs ih => simpa using ih

theorem discValue_id {r s : Row (Option String)} {tracks tracks' : List (Row (Owned DiscTrack))}
    {artists artists' : List (List ℤ)}
    (heq : discValue r tracks artists = discValue s tracks' artists') : r.id = s.id := by
  simp [discValue, object_inj, Fields.keys] at heq
  exact heq.1

/-- The identities of discs are in the snapshot: without a difference there are none. -/
theorem discs_eq_nil_of_snapshot (hne : h ≠ h') (hq : Matches db h q) (hq' : Matches db h' q')
    (hv : snapshot q h = some v) (hv' : snapshot q' h' = some v) :
    db.releases.discHistory.itemRows h = [] ∧ db.releases.discHistory.itemRows h' = [] := by
  obtain ⟨row, -, hv⟩ := Option.bind_eq_some_iff.mp hv
  obtain ⟨row', -, hv'⟩ := Option.bind_eq_some_iff.mp hv'
  have heq := (Option.some.inj hv).trans (Option.some.inj hv').symm
  simp only [discValues_eq] at heq
  simp [object_inj, Fields.keys] at heq
  obtain ⟨-, -, -, -, -, hdiscs, -⟩ := heq
  obtain ⟨hnil, hnil'⟩ := eq_nil_of_ids hdiscs (fun _ _ => discValue_id) (by
    intro r hr s hs
    exact itemRows_disjoint hne (hq.discs.subset (sortById_perm.subset hr))
      (hq'.discs.subset (sortById_perm.subset hs)))
  have hlist := (sortById_perm.trans hq.discs).symm
  have hlist' := (sortById_perm.trans hq'.discs).symm
  rw [hnil] at hlist
  rw [hnil'] at hlist'
  exact ⟨hlist.eq_nil, hlist'.eq_nil⟩

theorem content_of_snapshot (hva : a.validate = []) (hne : h ≠ h')
    (ha : stored db h = some (content a)) (hq : Matches db h q) (hq' : Matches db h' q')
    (hv : snapshot q h = some v) (hv' : snapshot q' h' = some v) : content a = content b := by
  obtain ⟨hnil, -⟩ := discs_eq_nil_of_snapshot hne hq hq' hv hv'
  obtain ⟨row, -, hca⟩ := Option.map_eq_some_iff.mp ha
  have hdiscs : (content a).discs = 0 := by
    rw [← hca]
    simp [discsOf, grouped, hnil]
  have hempty : a.discs = [] := by simpa [content] using hdiscs
  simp [NewRelease.validate, hempty] at hva

end Release

theorem canonical_snapshotForHistory {k : EntityType} (hv : snapshotForHistory q h k = some v) :
    Canonical v := by
  cases k with
  | Artist => exact Artist.canonical_snapshot hv
  | Label => exact Label.canonical_snapshot hv
  | Release => exact Release.canonical_snapshot hv
  | Song => exact Song.canonical_snapshot hv
  | Tag => exact Tag.canonical_snapshot hv
  | Event => exact Event.canonical_snapshot hv
  | SongLyrics => exact SongLyrics.canonical_snapshot hv
  | CreditRole => exact CreditRole.canonical_snapshot hv

end Thcdb.Catalog
