import Thcdb.Corrections.Service
import Thcdb.Interleaving.Replay
import Thcdb.Relational.Keyed

namespace Thcdb.Corrections
open Auth Interleaving Relational

variable {D : Type}

/-- Where a text or a record is shown: lyrics by song and language. -/
inductive Slot
  | lyrics (songId languageId : ℤ)
  | entity (entityType : EntityType) (id : EntityId)
  deriving DecidableEq, Repr

inductive Body (D : Type)
  | text (content : String)
  | columns (d : D)
  deriving DecidableEq, Repr

/-- What is shown: the columns of a label, which no approval writes, and what an approval writes as
a whole. The rows that two entities share (memberships of artists, relations of songs) and the main
flag of lyrics, which creating other lyrics of the song unsets as well, are left out. -/
structure Content (D : Type) where
  own : Option D
  body : Body D
  deriving DecidableEq, Repr

namespace Content

def update (x y : Content D) : Content D := { x with body := y.body }

def after (x : Content D) (write : Option (Content D)) : Content D := write.elim x x.update

@[simp] theorem after_none (x : Content D) : x.after none = x := rfl

/-- Of two writes the later one counts. -/
theorem after_or (x : Content D) (late early : Option (Content D)) :
    x.after (late.or early) = (x.after early).after late := by
  cases late with
  | none => rfl
  | some y => cases early <;> rfl

end Content

namespace EntityData

def content : EntityData D → Content D
  | .lyrics _ _ content _ => ⟨none, .text content⟩
  | .label own related => ⟨some own, .columns related⟩
  | .columns d => ⟨none, .columns d⟩

def slot (entityType : EntityType) (id : EntityId) : EntityData D → Slot
  | .lyrics songId languageId .. => .lyrics songId languageId
  | .label .. | .columns _ => .entity entityType id

/-- The type of the data that the services of this kind of entity take and store. -/
def Fits (entityType : EntityType) : EntityData D → Prop
  | .lyrics .. => entityType = .SongLyrics
  | .label .. => entityType = .Label
  | .columns _ => entityType ≠ .SongLyrics ∧ entityType ≠ .Label

instance (entityType : EntityType) : DecidablePred (Fits (D := D) entityType)
  | .lyrics .. => inferInstanceAs (Decidable (entityType = .SongLyrics))
  | .label .. => inferInstanceAs (Decidable (entityType = .Label))
  | .columns _ =>
    inferInstanceAs (Decidable (entityType ≠ .SongLyrics ∧ entityType ≠ .Label))

section

variable {entityType : EntityType} {x y : EntityData D}

/-- An update of a row by data of its own kind. -/
theorem Fits.content_update (hx : x.Fits entityType) (hy : y.Fits entityType) :
    (x.update y).content = x.content.update y.content := by
  cases x with
  | lyrics => cases y <;> simp_all [Fits, update, content, Content.update]
  | label => cases y <;> simp_all [Fits, update, content, Content.update]
  | columns => cases y <;> simp_all [Fits, update, content, Content.update]

theorem Fits.update (hx : x.Fits entityType) (hy : y.Fits entityType) :
    (x.update y).Fits entityType := by
  cases x with
  | label => cases y <;> exact hy
  | lyrics | columns => exact hy

theorem Fits.exists_lyrics (hx : x.Fits .SongLyrics) :
    ∃ songId languageId content isMain, x = .lyrics songId languageId content isMain := by
  cases x with
  | lyrics songId languageId content isMain => exact ⟨songId, languageId, content, isMain, rfl⟩
  | label => cases hx
  | columns => exact absurd rfl hx.1

theorem Fits.slot (hx : x.Fits entityType) (ht : entityType ≠ .SongLyrics) (id : EntityId) :
    x.slot entityType id = .entity entityType id := by
  cases x with
  | lyrics => exact absurd hx ht
  | label | columns => rfl

end

end EntityData

def Entity.slot (e : Entity D) : Slot := e.data.slot e.entityType e.id

def shown (entities : List (Entity D)) (slot : Slot) : Option (Content D) :=
  (lookupBy Entity.slot entities slot).map (·.data.content)

abbrev World.shows (w : World D) (slot : Slot) : Option (Content D) := shown w.entities slot

/-- The slot that an event has written, and what it wrote. -/
def World.written (w : World D) : Event → Option (Slot × Content D)
  | .applied _ correctionId historyId =>
    (findById w.corrections correctionId).bind fun r =>
      (findHistory w.histories r.entityType historyId).map fun h =>
        (h.data.slot r.entityType r.entityId, h.data.content)
  | .decided .. => none

def World.writesAt (w : World D) (slot : Slot) (e : Event) : Option (Content D) :=
  (w.written e).bind fun x => if x.1 = slot then some x.2 else none

section Shown

variable {entities new : List (Entity D)} {slot : Slot}

theorem shown_append :
    shown (entities ++ new) slot = (shown entities slot).or (shown new slot) := by
  unfold shown lookupBy
  rw [List.find?_append, Option.map_or]

/-- Rows that stay in their slots, of which one slot's is written. -/
theorem shown_write {f : Entity D → Entity D} {target : Slot} {x : Content D}
    (hf : ∀ e ∈ entities, (f e).slot = e.slot)
    (hit : ∀ e, lookupBy Entity.slot entities target = some e →
      (f e).data.content = e.data.content.update x)
    (miss : ∀ e ∈ entities, e.slot ≠ target → (f e).data.content = e.data.content) :
    shown (entities.map f) slot =
      (shown entities slot).map fun y => if target = slot then y.update x else y := by
  unfold shown
  rw [lookupBy_map_of_key hf, Option.map_map, Option.map_map]
  cases hfound : lookupBy Entity.slot entities slot with
  | none => rfl
  | some e =>
    simp only [Option.map_some, Function.comp_apply, Option.some.injEq]
    split_ifs with hs
    · subst hs
      exact hit e hfound
    · apply miss e (mem_of_lookupBy hfound)
      rw [key_of_lookupBy hfound]
      exact Ne.symm hs

theorem mem_of_shown {x : Content D} (h : shown entities slot = some x) :
    ∃ e ∈ entities, e.slot = slot ∧ e.data.content = x := by
  obtain ⟨e, he, rfl⟩ := Option.map_eq_some_iff.mp h
  exact ⟨e, mem_of_lookupBy he, key_of_lookupBy he, rfl⟩

theorem Entity.unsetSongMainLyrics_slot (e : Entity D) (songId : ℤ) :
    (e.unsetSongMainLyrics songId).slot = e.slot := by
  unfold Entity.unsetSongMainLyrics
  split
  · next s l content isMain hdata =>
    split
    · simp [Entity.slot, EntityData.slot, hdata]
    · rfl
  all_goals rfl

theorem Entity.unsetSongMainLyrics_content (e : Entity D) (songId : ℤ) :
    (e.unsetSongMainLyrics songId).data.content = e.data.content := by
  unfold Entity.unsetSongMainLyrics
  split
  · next s l content isMain hdata =>
    split
    · simp [EntityData.content, hdata]
    · rfl
  all_goals rfl

theorem Entity.isLyrics_iff {e : Entity D} {songId languageId : ℤ} :
    e.isLyrics songId languageId ↔ e.slot = .lyrics songId languageId := by
  unfold Entity.isLyrics Entity.slot EntityData.slot
  cases e.data <;> simp

theorem find_isLyrics (songId languageId : ℤ) :
    entities.find? (·.isLyrics songId languageId) =
      lookupBy Entity.slot entities (.lyrics songId languageId) := by
  unfold lookupBy
  congr 1
  funext e
  rw [Bool.eq_iff_iff, Entity.isLyrics_iff, decide_eq_true_iff]

theorem Entity.key_of_slot {e : Entity D} {entityType : EntityType} {id : EntityId}
    (h : e.slot = .entity entityType id) : e.entityType = entityType ∧ e.id = id := by
  unfold Entity.slot EntityData.slot at h
  cases hdata : e.data <;> simp_all

variable {correction : Correction} {history : History D} {entities' : List (Entity D)}

theorem content_of_isLyrics {e : Entity D} {songId languageId : ℤ}
    (h : e.isLyrics songId languageId) : e.data.content.own = none := by
  unfold Entity.isLyrics at h
  cases hdata : e.data with
  | lyrics => rfl
  | label | columns =>
    rw [hdata] at h
    cases h

/-- The first row of these lyrics is the one that is written. -/
theorem shown_applyUpdate_lyrics {songId languageId : ℤ} {content : String} {isMain : Bool}
    (hdata : history.data = .lyrics songId languageId content isMain)
    (h : applyUpdate entities correction history = some entities') (slot : Slot) :
    shown entities' slot = (shown entities slot).map (fun x =>
      if .lyrics songId languageId = slot then x.update history.data.content else x) ∧
    (shown entities (.lyrics songId languageId)).isSome := by
  simp only [applyUpdate, hdata, find_isLyrics] at h
  obtain ⟨target, htarget, rfl⟩ := Option.map_eq_some_iff.mp h
  rw [hdata]
  refine ⟨shown_write ?_ ?_ ?_, by simp [shown, htarget]⟩
  · intro e _
    split_ifs with he
    · rw [Entity.isLyrics_iff] at he
      rw [he.1]
      rfl
    · exact e.unsetSongMainLyrics_slot songId
    · rfl
  · intro e he
    obtain rfl : target = e := Option.some.inj (htarget.symm.trans he)
    have hlyrics := Entity.isLyrics_iff.mpr (key_of_lookupBy he)
    rw [if_pos ⟨hlyrics, rfl⟩, Content.update, content_of_isLyrics hlyrics]
    rfl
  · intro e _ hne
    rw [if_neg fun he => hne (Entity.isLyrics_iff.mp he.1)]
    split_ifs
    · exact e.unsetSongMainLyrics_content songId
    · rfl

/-- Every other kind of entity finds its row by the id. -/
theorem applyUpdate_eq (hh : history.data.Fits correction.entityType)
    (ht : correction.entityType ≠ .SongLyrics) :
    applyUpdate entities correction history =
      if entities.any fun e =>
        e.entityType = correction.entityType ∧ e.id = correction.entityId then
        some (entities.map fun e =>
          if e.entityType = correction.entityType ∧ e.id = correction.entityId then
            { e with data := e.data.update history.data }
          else e)
      else none := by
  unfold applyUpdate
  cases hdata : history.data with
  | lyrics =>
    rw [hdata] at hh
    exact absurd hh ht
  | label | columns => rfl

theorem shown_applyUpdate_row (hfits : ∀ e ∈ entities, e.data.Fits e.entityType)
    (hh : history.data.Fits correction.entityType) (ht : correction.entityType ≠ .SongLyrics)
    (h : applyUpdate entities correction history = some entities') (slot : Slot) :
    shown entities' slot = (shown entities slot).map (fun x =>
      if .entity correction.entityType correction.entityId = slot then
        x.update history.data.content else x) ∧
    (shown entities (.entity correction.entityType correction.entityId)).isSome := by
  rw [applyUpdate_eq hh ht] at h
  split_ifs at h with hany
  obtain rfl := Option.some.inj h
  have hkey : ∀ e ∈ entities, (e.entityType = correction.entityType ∧
      e.id = correction.entityId ↔
        e.slot = .entity correction.entityType correction.entityId) := by
    intro e he
    refine ⟨?_, Entity.key_of_slot⟩
    rintro ⟨htype, hid⟩
    rw [Entity.slot, (hfits e he).slot (htype ▸ ht), htype, hid]
  refine ⟨shown_write ?_ ?_ ?_, ?_⟩
  · intro e he
    split_ifs with hc
    · rw [(hkey e he).mp hc, ← hc.1, ← hc.2]
      have hnew := (hfits e he).update (hc.1 ▸ hh)
      exact hnew.slot (hc.1 ▸ ht) e.id
    · rfl
  · intro e he
    have hmem := mem_of_lookupBy he
    have hc := (hkey e hmem).mpr (key_of_lookupBy he)
    rw [if_pos hc]
    exact (hfits e hmem).content_update (hc.1 ▸ hh)
  · intro e he hne
    rw [if_neg fun hc => hne ((hkey e he).mp hc)]
  · obtain ⟨e, he, hc⟩ := List.any_eq_true.mp hany
    have hslot := (hkey e he).mp (by simpa using hc)
    unfold shown
    rw [Option.isSome_map, ← Option.ne_none_iff_isSome]
    exact fun hnone => lookupBy_eq_none.mp hnone e he hslot

/-- Applying a history writes the slot of its data and no other, and there is a row for it. -/
theorem shown_applyUpdate (hfits : ∀ e ∈ entities, e.data.Fits e.entityType)
    (hh : history.data.Fits correction.entityType)
    (h : applyUpdate entities correction history = some entities') (slot : Slot) :
    shown entities' slot = (shown entities slot).map (fun x =>
      if history.data.slot correction.entityType correction.entityId = slot then
        x.update history.data.content else x) ∧
    (shown entities (history.data.slot correction.entityType correction.entityId)).isSome := by
  by_cases ht : correction.entityType = .SongLyrics
  · rw [ht] at hh
    obtain ⟨_, _, _, _, hdata⟩ := hh.exists_lyrics
    have hshown := shown_applyUpdate_lyrics hdata h slot
    rwa [hdata] at hshown ⊢
  · rw [hh.slot ht]
    exact shown_applyUpdate_row hfits hh ht h slot

theorem Entity.unsetSongMainLyrics_fits {e : Entity D} (he : e.data.Fits e.entityType)
    (songId : ℤ) : (e.unsetSongMainLyrics songId).data.Fits
      (e.unsetSongMainLyrics songId).entityType := by
  unfold Entity.unsetSongMainLyrics
  split
  · next s l content isMain hdata =>
    rw [hdata] at he
    split
    · exact he
    · rwa [hdata]
  all_goals exact he

/-- No row gets data of another kind. -/
theorem fits_applyUpdate (hfits : ∀ e ∈ entities, e.data.Fits e.entityType)
    (hh : history.data.Fits correction.entityType)
    (h : applyUpdate entities correction history = some entities') :
    ∀ e ∈ entities', e.data.Fits e.entityType := by
  by_cases ht : correction.entityType = .SongLyrics
  · rw [ht] at hh
    obtain ⟨songId, languageId, content, isMain, hdata⟩ := hh.exists_lyrics
    simp only [applyUpdate, hdata, find_isLyrics] at h
    obtain ⟨target, -, rfl⟩ := Option.map_eq_some_iff.mp h
    intro e' he'
    obtain ⟨e, he, rfl⟩ := List.mem_map.mp he'
    have hold := hfits e he
    split_ifs with hl
    · have hlyrics := hl.1
      unfold Entity.isLyrics at hlyrics
      cases hd : e.data with
      | lyrics => rwa [hd] at hold
      | label | columns =>
        rw [hd] at hlyrics
        cases hlyrics
    · exact Entity.unsetSongMainLyrics_fits hold songId
    · exact hold
  · rw [applyUpdate_eq hh ht] at h
    split_ifs at h
    obtain rfl := Option.some.inj h
    intro e' he'
    obtain ⟨e, he, rfl⟩ := List.mem_map.mp he'
    split_ifs with hc
    · exact (hfits e he).update (hc.1 ▸ hh)
    · exact hfits e he

end Shown

end Thcdb.Corrections
