import Thcdb.Catalog.Database

namespace Thcdb.Catalog
open Corrections Relational

/-- The characters with the Unicode property `White_Space`. -/
def isWhitespace (c : Char) : Bool :=
  let n := c.toNat
  (9 ≤ n && n ≤ 13) || n = 32 || n = 0x85 || n = 0xA0 || n = 0x1680 ||
    (0x2000 ≤ n && n ≤ 0x200A) || n = 0x2028 || n = 0x2029 || n = 0x202F || n = 0x205F ||
    n = 0x3000

structure NewSongLyrics where
  songId : ℤ
  languageId : ℤ
  content : String
  isMain : Bool
  deriving DecidableEq, Repr

namespace NewSongLyrics

inductive ValidationErrorKind
  | EmptyContent
  | InvalidSongId (id : ℤ)
  | InvalidLanguageId (id : ℤ)
  deriving DecidableEq, Repr

def ValidationErrorKind.message : ValidationErrorKind → String
  | .EmptyContent => "Content is empty"
  | .InvalidSongId id => "Invalid Song Id: " ++ toString id
  | .InvalidLanguageId id => "Invalid Language Id: " ++ toString id

def validate (lyrics : NewSongLyrics) : Except ValidationErrorKind Unit :=
  if lyrics.content.toList.all isWhitespace then .error .EmptyContent
  else if lyrics.songId ≤ 0 then .error (.InvalidSongId lyrics.songId)
  else if lyrics.languageId ≤ 0 then .error (.InvalidLanguageId lyrics.languageId)
  else .ok ()

def columns (lyrics : NewSongLyrics) : SongLyrics :=
  ⟨lyrics.songId, lyrics.languageId, lyrics.content, lyrics.isMain⟩

end NewSongLyrics

namespace SongLyrics

variable (db : Database)

/-- The foreign keys, one row for each song and language, and one main row for each song. -/
def constraints : Constraints SongLyrics where
  check c := db.hasSong c.songId && db.hasLanguage c.languageId
  conflict c d := c.songId = d.songId && (c.languageId = d.languageId || c.isMain && d.isMain)

def historyConstraints : Constraints SongLyrics where
  check c := db.hasSong c.songId && db.hasLanguage c.languageId
  conflict _ _ := false

def unsetSongMainLyrics (songId : ℤ) (excludeId : Option ℤ) (t : Table SongLyrics) :
    Table SongLyrics :=
  t.update fun r =>
    if r.cols.songId = songId ∧ excludeId ≠ some r.id then { r.cols with isMain := false }
    else r.cols

def create (lyrics : NewSongLyrics) : Option (Database × ℤ) := do
  let live := db.songLyrics.songLyrics
  let live := if lyrics.isMain then unsetSongMainLyrics lyrics.songId none live else live
  let (live, id) ← live.insert (constraints db) lyrics.columns
  return ({ db with songLyrics := { db.songLyrics with songLyrics := live } }, id)

def createHistory (lyrics : NewSongLyrics) : Option (Database × ℤ) := do
  let (history, id) ← db.songLyrics.history.insert (historyConstraints db) lyrics.columns
  return ({ db with songLyrics := { db.songLyrics with history := history } }, id)

/-- `upsert_correction`, up to the rows of the correction itself. -/
def upsertCorrection (lyrics : NewSongLyrics) : Option (Database × ℤ) :=
  match lyrics.validate with
  | .error _ => none
  | .ok () => createHistory db lyrics

/-- The row that an approval writes to: the one of the history's song and language. -/
def updateTarget (history : SongLyrics) (t : Table SongLyrics) : Option (Row SongLyrics) :=
  t.rows.find? fun r => r.cols.songId = history.songId ∧ r.cols.languageId = history.languageId

def applyHistory (history : SongLyrics) (t : Table SongLyrics) : Option (Table SongLyrics) := do
  let target ← updateTarget history t
  let t := if history.isMain then unsetSongMainLyrics history.songId (some target.id) t else t
  t.updateById (constraints db) target.id
    { target.cols with content := history.content, isMain := history.isMain }

def applyUpdate (revisions : List CorrectionRevision) (correction : Correction) :
    Option Database := do
  let (_, history) ← revisedHistory revisions correction db.songLyrics.history
  let live ← applyHistory db history db.songLyrics.songLyrics
  return { db with songLyrics := { db.songLyrics with songLyrics := live } }

theorem constraints_symm {db : Database} (c d : SongLyrics) :
    (constraints db).conflict c d = (constraints db).conflict d c := by
  simp only [constraints, eq_comm, Bool.and_comm]

theorem createHistory_findById {db db' : Database} {lyrics : NewSongLyrics} {id : ℤ}
    (h : createHistory db lyrics = some (db', id)) :
    db'.songLyrics.history.findById id = some lyrics.columns := by
  obtain ⟨⟨history, i⟩, hi, heq⟩ := Option.bind_eq_some_iff.mp h
  obtain ⟨-, rfl, rfl⟩ := Table.insert_eq_some hi
  obtain ⟨rfl, rfl⟩ := Prod.mk.inj (Option.some.inj heq)
  exact Table.findById_insertAll_next

theorem upsertCorrection_findById {db db' : Database} {lyrics : NewSongLyrics} {id : ℤ}
    (h : upsertCorrection db lyrics = some (db', id)) :
    db'.songLyrics.history.findById id = some lyrics.columns := by
  unfold upsertCorrection at h
  split at h
  · cases h
  · exact createHistory_findById h

section Approval

variable {db : Database} {history : SongLyrics} {t t' : Table SongLyrics} {target : Row SongLyrics}

theorem updateTarget_eq_some (h : updateTarget history t = some target) :
    target ∈ t.rows ∧ target.cols.songId = history.songId ∧
      target.cols.languageId = history.languageId := by
  refine ⟨List.mem_of_find?_eq_some h, ?_⟩
  simpa using List.find?_some h

def written (history : SongLyrics) (target : ℤ) (r : Row SongLyrics) : SongLyrics :=
  if r.id = target then { r.cols with content := history.content, isMain := history.isMain }
  else if history.isMain ∧ r.cols.songId = history.songId then { r.cols with isMain := false }
  else r.cols

@[simp] theorem written_songId {r : Row SongLyrics} {i : ℤ} :
    (written history i r).songId = r.cols.songId := by
  unfold written
  split
  · rfl
  · split <;> rfl

@[simp] theorem written_languageId {r : Row SongLyrics} {i : ℤ} :
    (written history i r).languageId = r.cols.languageId := by
  unfold written
  split
  · rfl
  · split <;> rfl

/-- Of the rows of one song only the target can be main if the history is, and any other row is
main only if it was. -/
theorem written_isMain {r : Row SongLyrics} {i : ℤ} (h : (written history i r).isMain) :
    (r.id = i ∧ history.isMain) ∨
      (r.id ≠ i ∧ r.cols.isMain ∧ (history.isMain → r.cols.songId ≠ history.songId)) := by
  unfold written at h
  split at h
  · next hid => exact Or.inl ⟨hid, h⟩
  · next hid =>
    split at h
    · cases h
    · next hother => exact Or.inr ⟨hid, h, fun hm hs => hother ⟨hm, hs⟩⟩

theorem conflict_written {r s : Row SongLyrics} (hsong : target.cols.songId = history.songId)
    (ht : target ∈ t.rows) (hr : r ∈ t.rows) (hs : s ∈ t.rows) (hne : r.id ≠ s.id)
    (h : !(constraints db).conflict r.cols s.cols) :
    !(constraints db).conflict (written history target.id r) (written history target.id s) := by
  rw [Bool.not_eq_true', Bool.eq_false_iff] at h ⊢
  intro hc
  simp only [constraints, written_songId, written_languageId, Bool.and_eq_true, Bool.or_eq_true,
    decide_eq_true_eq, ne_eq] at hc h
  obtain ⟨hsame, hlang | ⟨hrm, hsm⟩⟩ := hc
  · exact h ⟨hsame, Or.inl hlang⟩
  · rcases written_isMain hrm with ⟨hri, hm⟩ | ⟨hri, hrm, hro⟩
    · rcases written_isMain hsm with ⟨hsi, -⟩ | ⟨-, -, hso⟩
      · exact hne (hri.trans hsi.symm)
      · rw [Table.eq_of_id hr ht hri] at hsame
        exact hso hm (hsame.symm.trans hsong)
    · rcases written_isMain hsm with ⟨hsi, hm⟩ | ⟨-, hsm, -⟩
      · rw [Table.eq_of_id hs ht hsi] at hsame
        exact hro hm (hsame.trans hsong)
      · exact h ⟨hsame, Or.inr ⟨hrm, hsm⟩⟩

theorem written_satisfies (h : t.Satisfies (constraints db))
    (ht : updateTarget history t = some target) :
    (t.update (written history target.id)).Satisfies (constraints db) := by
  obtain ⟨hmem, hsong, -⟩ := updateTarget_eq_some ht
  have hids : t.rows.Pairwise fun r s => r.id ≠ s.id := List.pairwise_map.mp t.nodup
  have hpairs : t.rows.Pairwise fun r s => !(constraints db).conflict r.cols s.cols :=
    List.pairwise_map.mp h.2
  refine ⟨?_, ?_⟩
  · intro c hc
    rw [Table.cols, Table.update, List.map_map] at hc
    obtain ⟨r, hr, rfl⟩ := List.mem_map.mp hc
    have hcheck : (constraints db).check r.cols := h.1 _ (List.mem_map.mpr ⟨r, hr, rfl⟩)
    simpa [constraints] using hcheck
  · rw [Table.cols, Table.update, List.map_map, List.pairwise_map]
    refine (hids.and hpairs).imp_of_mem ?_
    intro r s hr hs hrs
    exact conflict_written hsong hmem hr hs hrs.1 hrs.2

/-- An approval writes to one row, and takes the main mark from the other rows of its song. -/
theorem applyHistory_eq (h : t.Satisfies (constraints db)) :
    applyHistory db history t =
      (updateTarget history t).map fun target => t.update (written history target.id) := by
  cases ht : updateTarget history t with
  | none => simp [applyHistory, ht]
  | some target =>
    obtain ⟨hmem, hsong, -⟩ := updateTarget_eq_some ht
    -- the row itself is left out where the marks are taken away, so that one pass does both
    have hset : ((if history.isMain then
          unsetSongMainLyrics history.songId (some target.id) t else t).set target.id
        { target.cols with content := history.content, isMain := history.isMain }) =
        t.update (written history target.id) := by
      apply Table.ext
      · cases hm : history.isMain with
        | false =>
          apply List.map_congr_left
          intro r hr
          by_cases hid : r.id = target.id
          · simp [written, Table.eq_of_id hr hmem hid, hm]
          · simp [written, hid, hm]
        | true =>
          show List.map _ (List.map _ t.rows) = _
          rw [List.map_map]
          apply List.map_congr_left
          intro r hr
          by_cases hid : r.id = target.id
          · simp [written, Table.eq_of_id hr hmem hid, hm]
          · have hid' : ¬target.id = r.id := Ne.symm hid
            simp [written, hid, hid', hm]
      · cases history.isMain <;> rfl
    have hhas : (if history.isMain then
        unsetSongMainLyrics history.songId (some target.id) t else t).has target.id := by
      have hold : t.has target.id := Table.has_iff.mpr ⟨target, hmem, rfl⟩
      split
      · rwa [unsetSongMainLyrics, Table.has_update]
      · exact hold
    simp only [applyHistory, ht, Option.bind_eq_bind, Option.bind_some, Table.updateById, hset,
      hhas, written_satisfies h ht, Option.map_some, and_self, if_true]

end Approval

section Frame

variable (x : ℤ) (X : SongLyrics) (lyrics : NewSongLyrics)

def Holds (c : SongLyrics) : Prop := c.content = lyrics.content ∧ c.isMain = lyrics.isMain

instance (c : SongLyrics) : Decidable (Holds lyrics c) := inferInstanceAs (Decidable (_ ∧ _))

/-- What the correction of row `x` may write: the row itself, and the main marks of its song. -/
structure TouchesOwnEntity (before after : Table SongLyrics) : Prop where
  rows : after.rows.map Row.id = before.rows.map Row.id
  others : ∀ y Y, y ≠ x → before.findById y = some Y → after.findById y =
    some (if lyrics.isMain ∧ Y.songId = X.songId then { Y with isMain := false } else Y)
  own : ∃ X', after.findById x = some X' ∧ Holds lyrics X'

variable {x X lyrics} {before after : Table SongLyrics} {target : Row SongLyrics}
  {db : Database}

/-- A song has one main row. -/
theorem isMain_eq_false (h : before.Satisfies (constraints db)) {y : ℤ} {Y : SongLyrics}
    (hX : before.findById x = some X) (hY : before.findById y = some Y) (hne : y ≠ x)
    (hsong : Y.songId = X.songId) (hmain : X.isMain) : Y.isMain = false := by
  have hc := h.conflict_eq_false constraints_symm (Table.findById_eq_some.mp hY)
    (Table.findById_eq_some.mp hX) hne
  simp only [constraints, hsong, hmain, decide_true, Bool.and_true, Bool.true_and,
    Bool.or_eq_false_iff] at hc
  exact hc.2

/-- Where both rows hold what the lyrics bring, no mark is to be taken from another row. -/
theorem unset_eq_self (h : before.Satisfies (constraints db)) {y : ℤ} {Y : SongLyrics}
    (hX : before.findById x = some X) (hY : before.findById y = some Y) (hne : y ≠ x)
    (hheld : Holds lyrics X) :
    (if lyrics.isMain ∧ Y.songId = X.songId then { Y with isMain := false } else Y) = Y := by
  split
  · next hc =>
    have hfalse := isMain_eq_false h hX hY hne hc.2 (hheld.2.trans hc.1)
    rw [← hfalse]
  · rfl

/-- The approval is right if it writes to the row that was corrected; elsewhere only if there was
nothing to write. -/
theorem written_touchesOwnEntity (h : before.Satisfies (constraints db))
    (hX : before.findById x = some X) (ht : updateTarget lyrics.columns before = some target) :
    TouchesOwnEntity x X lyrics before (before.update (written lyrics.columns target.id)) ↔
      target.id = x ∨ (Holds lyrics target.cols ∧ Holds lyrics X) := by
  obtain ⟨hmem, hsong, -⟩ := updateTarget_eq_some ht
  have htarget : before.findById target.id = some target.cols := Table.findById_of_mem hmem
  have hids : (before.update (written lyrics.columns target.id)).rows.map Row.id =
      before.rows.map Row.id := by
    rw [Table.update, List.map_map]
    rfl
  by_cases hid : target.id = x
  · -- the row that was corrected is written
    refine iff_of_true ⟨hids, ?_, ?_⟩ (Or.inl hid)
    · intro y Y hne hY
      subst hid
      obtain rfl : target.cols = X := Option.some.inj (htarget.symm.trans hX)
      rw [Table.findById_update hY, hsong, written, if_neg hne]
      rfl
    · refine ⟨_, Table.findById_update hX, ?_⟩
      simp [written, hid, Holds, NewSongLyrics.columns]
  · -- another row is written, which is right only if nothing changes by it
    rw [or_iff_right hid]
    constructor
    · intro hw
      have hother := hw.others target.id target.cols hid htarget
      obtain ⟨X', hX', hheld⟩ := hw.own
      rw [Table.findById_update htarget, written, if_pos rfl] at hother
      rw [Table.findById_update hX] at hX'
      obtain rfl := Option.some.inj hX'
      refine ⟨?_, ?_⟩
      · have hcols := Option.some.inj hother
        split at hcols
        · next hc =>
          have hmain := congrArg SongLyrics.isMain hcols
          exact absurd (hmain.symm.trans hc.1) (by simp)
        · exact ⟨(congrArg SongLyrics.content hcols).symm, (congrArg SongLyrics.isMain hcols).symm⟩
      · rw [written, if_neg (Ne.symm hid)] at hheld
        split at hheld
        · next hc => exact absurd (hheld.2.trans hc.1) (by simp)
        · exact hheld
    · rintro ⟨hheld, hheldX⟩
      refine ⟨hids, ?_, ?_⟩
      · intro y Y hne hY
        rw [unset_eq_self h hX hY hne hheldX, Table.findById_update hY]
        by_cases hy : y = target.id
        · subst hy
          obtain rfl : target.cols = Y := Option.some.inj (htarget.symm.trans hY)
          simp [written, NewSongLyrics.columns, ← hheld.1, ← hheld.2]
        · have hself := unset_eq_self h htarget hY hy hheld
          rw [hsong] at hself
          rw [written, if_neg hy]
          exact congrArg some hself
      · have hself := unset_eq_self h htarget hX (Ne.symm hid) hheld
        rw [hsong] at hself
        refine ⟨X, ?_, hheldX⟩
        rw [Table.findById_update hX, written, if_neg (Ne.symm hid)]
        exact congrArg some hself

end Frame

/-- Approving a correction of a row of lyrics touches that row only if the lyrics name its song and
language, or name no row, or bring what both rows hold. -/
theorem correction_touches_own_entity {db₀ db₁ db : Database} {lyrics : NewSongLyrics}
    {historyId : ℤ} {X : SongLyrics} {revisions : List CorrectionRevision}
    {correction : Correction} {revision : CorrectionRevision}
    (hsubmit : upsertCorrection db₀ lyrics = some (db₁, historyId))
    (hkept : db.songLyrics.history.findById historyId = db₁.songLyrics.history.findById historyId)
    (hnewest : findRevision revisions correction.id = some revision)
    (hhistory : revision.entityHistoryId = historyId)
    (hrows : db.songLyrics.songLyrics.Satisfies (constraints db))
    (hX : db.songLyrics.songLyrics.findById correction.entityId = some X) :
    (∀ db', applyUpdate db revisions correction = some db' →
      TouchesOwnEntity correction.entityId X lyrics db.songLyrics.songLyrics
        db'.songLyrics.songLyrics) ↔
    ∀ r ∈ db.songLyrics.songLyrics.rows, r.cols.songId = lyrics.songId →
      r.cols.languageId = lyrics.languageId →
      r.id = correction.entityId ∨ (Holds lyrics r.cols ∧ Holds lyrics X) := by
  have hrow : db.songLyrics.history.findById historyId = some lyrics.columns := by
    rw [hkept, upsertCorrection_findById hsubmit]
  have hupdate : applyUpdate db revisions correction =
      (updateTarget lyrics.columns db.songLyrics.songLyrics).map fun target =>
        { db with songLyrics := { db.songLyrics with
            songLyrics := db.songLyrics.songLyrics.update (written lyrics.columns target.id) } } := by
    subst hhistory
    unfold applyUpdate
    rw [revisedHistory_eq hnewest, hrow]
    simp only [applyHistory_eq hrows, Option.map_some, Option.bind_eq_bind, Option.bind_some]
    cases updateTarget lyrics.columns db.songLyrics.songLyrics <;> rfl
  rw [hupdate]
  cases ht : updateTarget lyrics.columns db.songLyrics.songLyrics with
  | none =>
    have hnone := List.find?_eq_none.mp ht
    refine iff_of_true (fun db' h => by cases h) ?_
    intro r hr hsong hlanguage
    exact absurd (decide_eq_true ⟨hsong, hlanguage⟩) (hnone r hr)
  | some target =>
    have hiff : TouchesOwnEntity correction.entityId X lyrics db.songLyrics.songLyrics
        (db.songLyrics.songLyrics.update (written lyrics.columns target.id)) ↔ _ :=
      written_touchesOwnEntity hrows hX ht
    obtain ⟨hmem, hsong, hlanguage⟩ := updateTarget_eq_some ht
    constructor
    · intro h r hr hrsong hrlanguage
      -- a song has one row in a language, and the approval finds it
      have hsame : r = target := by
        by_contra hne
        have hid : r.id ≠ target.id := fun hid => hne (Table.eq_of_id hr hmem hid)
        have hc := hrows.conflict_eq_false constraints_symm hr hmem hid
        simp [constraints, hrsong, hrlanguage, hsong, hlanguage, NewSongLyrics.columns] at hc
      rw [hsame]
      exact hiff.mp (h _ rfl)
    · intro h db' hdb
      obtain rfl := Option.some.inj hdb
      exact hiff.mpr (h target hmem hsong hlanguage)

def twoLyrics : Database :=
  let db : Database := default
  { db with
    languages := db.languages.insertAll [⟨"ja", "Japanese"⟩, ⟨"en", "English"⟩]
    songs := { db.songs with song := db.songs.song.insertAll [⟨"t"⟩] }
    songLyrics := { db.songLyrics with
      songLyrics := db.songLyrics.songLyrics.insertAll [⟨1, 1, "a", true⟩, ⟨1, 2, "b", false⟩] } }

/-- The correction of the first row, once its lyrics are in the history. -/
def submitted (lyrics : NewSongLyrics) : Database :=
  { twoLyrics with songLyrics := { twoLyrics.songLyrics with
      history := twoLyrics.songLyrics.history.insertAll [lyrics.columns] } }

def firstCorrection : Correction := ⟨1, .Pending, .Update, .SongLyrics, 1, 0, none⟩

def firstRevision : CorrectionRevision := ⟨1, 1, 1, ""⟩

theorem correction_touches_own_entity_same_language :
    ∃ db', applyUpdate (submitted ⟨1, 1, "c", false⟩) [firstRevision] firstCorrection = some db' ∧
      TouchesOwnEntity 1 ⟨1, 1, "a", true⟩ ⟨1, 1, "c", false⟩ twoLyrics.songLyrics.songLyrics
        db'.songLyrics.songLyrics := by
  have hsubmit : upsertCorrection twoLyrics ⟨1, 1, "c", false⟩ =
      some (submitted ⟨1, 1, "c", false⟩, 1) := rfl
  have hnewest : findRevision [firstRevision] firstCorrection.id = some firstRevision := by decide
  have hrows : (submitted ⟨1, 1, "c", false⟩).songLyrics.songLyrics.Satisfies
      (constraints (submitted ⟨1, 1, "c", false⟩)) := by decide
  exact ⟨_, rfl,
    (correction_touches_own_entity hsubmit rfl hnewest rfl hrows rfl).mpr (by decide) _ rfl⟩

/-- Submitted for the first row with the language of the second, the lyrics go to the second. -/
theorem correction_writes_other_entity :
    upsertCorrection twoLyrics ⟨1, 2, "c", false⟩ = some (submitted ⟨1, 2, "c", false⟩, 1) ∧
      twoLyrics.songLyrics.songLyrics.Satisfies (constraints twoLyrics) ∧
      ∃ db', applyUpdate (submitted ⟨1, 2, "c", false⟩) [firstRevision] firstCorrection = some db' ∧
        ¬TouchesOwnEntity 1 ⟨1, 1, "a", true⟩ ⟨1, 2, "c", false⟩ twoLyrics.songLyrics.songLyrics
          db'.songLyrics.songLyrics := by
  refine ⟨rfl, by decide, _, rfl, ?_⟩
  intro h
  have hsecond := h.others 2 ⟨1, 2, "b", false⟩ (by decide) (by decide)
  revert hsecond
  decide

end SongLyrics

end Thcdb.Catalog
