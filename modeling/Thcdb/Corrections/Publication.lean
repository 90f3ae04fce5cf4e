import Thcdb.Corrections.Transactions

namespace Thcdb.Corrections
open Auth

variable {D : Type}

/-- When an approved correction became live: a creating one at once. -/
def Correction.liveAt (r : Correction) : ℕ := r.handledAt.getD r.createdAt

/-- The content of a correction becomes what the entity shows: the entity is created with it, or
the correction is approved. -/
structure Publication where
  entityType : EntityType
  entityId : EntityId
  correctionId : CorrectionId
  time : ℕ
  created : Bool
  deriving DecidableEq, Repr

def World.publishes (w : World D) : Input D → List Publication
  | .create entityType _ => [⟨entityType, w.entitySeq entityType, w.correctionSeq, w.clock, true⟩]
  | .handle method id approver =>
    match w.decision method id approver with
    | none => []
    | some (d, _) =>
      if d.history.isSome then
        [⟨d.correction.entityType, d.correction.entityId, d.correction.id, w.clock, false⟩]
      else []
  | _ => []

/-- One transaction after the other, with a record of what became live and when. -/
def runPublishing (w : World D) (live : List Publication) :
    List (Request D) → Option (World D × List Publication)
  | [] => some (w, live)
  | r :: rs => (transact w r).bind fun x => runPublishing x.1 (live ++ w.publishes r.input) rs

/-- What is known of the tables and the record of what became live. -/
structure Archive (w : World D) (live : List Publication) : Prop where
  wf : w.Wf
  revised : ∀ r ∈ w.corrections, ∃ v ∈ w.revisions, v.correctionId = r.id
  stored : ∀ v ∈ w.revisions, ∀ r ∈ w.corrections, r.id = v.correctionId →
    ∃ history ∈ w.histories, history.entityType = r.entityType ∧ history.id = v.entityHistoryId
  pending : ∀ r ∈ w.corrections, r.status = .Pending → r.handledAt = none
  rejected : ∀ r ∈ w.corrections, r.status = .Rejected → r.handledAt.isSome
  live_lt : ∀ x ∈ live, x.time < w.clock
  live_row : ∀ x ∈ live, ∃ r ∈ w.corrections, r.id = x.correctionId ∧
    r.entityType = x.entityType ∧ r.entityId = x.entityId ∧ r.status ≠ .Pending ∧
    x.time ≤ r.liveAt
  approved_live : ∀ r ∈ w.corrections, r.status = .Approved → ∃ x ∈ live, x.correctionId = r.id ∧
    x.time = r.liveAt ∧ (x.created ↔ r.handledAt = none)
  created_live : ∀ r ∈ w.corrections, ∃ x ∈ live, x.created ∧ x.entityType = r.entityType ∧
    x.entityId = r.entityId
  created_first : ∀ x ∈ live, ∀ y ∈ live, x.entityType = y.entityType → x.entityId = y.entityId →
    x.created → x ≠ y → x.time < y.time
  handled_after : ∀ r ∈ w.corrections, ∀ t, r.handledAt = some t → ∀ x ∈ live, x.created →
    x.entityType = r.entityType → x.entityId = r.entityId → x.time < t
  time_inj : ∀ x ∈ live, ∀ y ∈ live, x.entityType = y.entityType → x.entityId = y.entityId →
    x.time = y.time → x = y

section Archive

variable {w w' : World D} {live live' : List Publication} {r s : Correction}

namespace Archive

section Rows

variable (h : Archive w live)
include h

end Rows

theorem later (h : Archive w live) (duration : ℕ) : Archive (w.later duration) live where
  __ := h
  wf := h.wf.later duration
  live_lt x hx := Nat.lt_of_lt_of_le (h.live_lt x hx) (by simp only [World.later]; omega)

theorem drawHistory (h : Archive w live) (entityType : EntityType) :
    Archive (w.drawHistory entityType) live :=
  { h with wf := h.wf.drawHistory }

theorem addHistory (h : Archive w live) (entityType : EntityType) (data : EntityData D) :
    Archive (w.addHistory entityType data) live where
  __ := h
  wf := h.wf.addHistory data
  stored v hv r hr hid := by
    obtain ⟨history, hh, hrest⟩ := h.stored v hv r hr hid
    exact ⟨history, List.mem_append_left _ hh, hrest⟩

theorem addRevision (h : Archive w live) {p : Correction} (hp : p ∈ w.corrections)
    {new : NewCorrectionMeta} (hlt : new.historyId < w.historySeq p.entityType)
    (hstored : ∃ history ∈ w.histories, history.entityType = p.entityType ∧
      history.id = new.historyId) : Archive (w.addRevision p.id new) live where
  __ := h
  wf := h.wf.addRevision hp hlt
  revised r hr := by
    obtain ⟨v, hv, hid⟩ := h.revised r hr
    exact ⟨v, List.mem_append_left _ hv, hid⟩
  stored v hv r hr hid := by
    rcases List.mem_append.mp hv with hv | hv
    · exact h.stored v hv r hr hid
    · rw [List.mem_singleton.mp hv] at hid ⊢
      obtain rfl := h.wf.eq_of_id hr hp hid
      exact hstored

theorem addEntity (h : Archive w live) (entityType : EntityType) (data : EntityData D) :
    Archive (w.addEntity entityType data) live :=
  { h with wf := h.wf.addEntity data }

section AddCorrection

variable {new : NewCorrectionMeta} (h : Archive w live)
include h

theorem revised_addCorrection : ∀ r ∈ (w.addCorrection new).corrections,
    ∃ v ∈ (w.addCorrection new).revisions, v.correctionId = r.id := by
  intro r hr
  rcases List.mem_append.mp hr with hr | hr
  · obtain ⟨v, hv, hid⟩ := h.revised r hr
    exact ⟨v, List.mem_append_left _ hv, hid⟩
  · rw [List.mem_singleton.mp hr]
    exact ⟨_, List.mem_append_right _ (List.mem_singleton_self _), rfl⟩

theorem stored_addCorrection (hstored : ∃ history ∈ w.histories,
      history.entityType = new.entityType ∧ history.id = new.historyId) :
    ∀ v ∈ (w.addCorrection new).revisions, ∀ r ∈ (w.addCorrection new).corrections,
      r.id = v.correctionId → ∃ history ∈ w.histories,
        history.entityType = r.entityType ∧ history.id = v.entityHistoryId := by
  intro v hv r hr hid
  rcases List.mem_append.mp hv with hv | hv
  · rcases List.mem_append.mp hr with hr | hr
    · exact h.stored v hv r hr hid
    · rw [List.mem_singleton.mp hr] at hid
      exact absurd hid.symm (ne_of_lt (h.wf.revisions_lt v hv))
  · rw [List.mem_singleton.mp hv] at hid ⊢
    rcases List.mem_append.mp hr with hr | hr
    · exact absurd hid (ne_of_lt (h.wf.corrections_lt r hr))
    · rw [List.mem_singleton.mp hr]
      exact hstored

/-- A new correction has not been handled. -/
theorem pending_addCorrection : ∀ r ∈ (w.addCorrection new).corrections,
    r.status = .Pending → r.handledAt = none := by
  intro r hr hrs
  rcases List.mem_append.mp hr with hr | hr
  · exact h.pending r hr hrs
  · rw [List.mem_singleton.mp hr]

theorem rejected_addCorrection (hs : new.status ≠ .Rejected) :
    ∀ r ∈ (w.addCorrection new).corrections, r.status = .Rejected → r.handledAt.isSome := by
  intro r hr hrs
  rcases List.mem_append.mp hr with hr | hr
  · exact h.rejected r hr hrs
  · rw [List.mem_singleton.mp hr] at hrs
    exact absurd hrs hs

/-- A pending correction beside another one of its entity. -/
theorem addPending {p : Correction} (hp : p ∈ w.corrections) (hs : new.status = .Pending)
    (ht : new.entityType = p.entityType) (hid : new.entityId = p.entityId)
    (hlt : new.historyId < w.historySeq new.entityType)
    (hstored : ∃ history ∈ w.histories, history.entityType = new.entityType ∧
      history.id = new.historyId) : Archive (w.addCorrection new) live where
  wf := h.wf.addCorrection (by rw [ht, hid]; exact h.wf.entities_lt p hp) hlt
  revised := h.revised_addCorrection
  stored := h.stored_addCorrection hstored
  pending := h.pending_addCorrection
  rejected := h.rejected_addCorrection (by rw [hs]; decide)
  live_lt := h.live_lt
  live_row x hx := by
    obtain ⟨r, hr, hrest⟩ := h.live_row x hx
    exact ⟨r, List.mem_append_left _ hr, hrest⟩
  approved_live r hr hrs := by
    rcases List.mem_append.mp hr with hr | hr
    · exact h.approved_live r hr hrs
    · rw [List.mem_singleton.mp hr, hs] at hrs
      cases hrs
  -- the entity has been created with the correction that is there already
  created_live r hr := by
    rcases List.mem_append.mp hr with hr | hr
    · exact h.created_live r hr
    · obtain ⟨x, hx, hc, hxt, hxid⟩ := h.created_live p hp
      rw [List.mem_singleton.mp hr]
      exact ⟨x, hx, hc, hxt.trans ht.symm, hxid.trans hid.symm⟩
  created_first := h.created_first
  handled_after r hr t hh := by
    rcases List.mem_append.mp hr with hr | hr
    · exact h.handled_after r hr t hh
    · rw [List.mem_singleton.mp hr] at hh
      cases hh
  time_inj := h.time_inj

/-- The approved correction of an entity that had none. -/
theorem addCreated (hs : new.status = .Approved)
    (hlt : new.entityId < w.entitySeq new.entityType)
    (hfresh : ∀ r ∈ w.corrections, r.entityType = new.entityType → r.entityId ≠ new.entityId)
    (hhistory : new.historyId < w.historySeq new.entityType)
    (hstored : ∃ history ∈ w.histories, history.entityType = new.entityType ∧
      history.id = new.historyId) (duration : ℕ) :
    Archive ((w.addCorrection new).later duration)
      (live ++ [⟨new.entityType, new.entityId, w.correctionSeq, w.clock, true⟩]) where
  wf := (h.wf.addCorrection hlt hhistory).later duration
  revised := h.revised_addCorrection
  stored := h.stored_addCorrection hstored
  pending := h.pending_addCorrection
  rejected := h.rejected_addCorrection (by rw [hs]; decide)
  live_lt x hx := by
    have hclock : w.clock < ((w.addCorrection new).later duration).clock := by
      simp only [World.later, World.addCorrection]
      omega
    rcases List.mem_append.mp hx with hx | hx
    · exact Nat.lt_trans (h.live_lt x hx) hclock
    · rw [List.mem_singleton.mp hx]
      exact hclock
  live_row x hx := by
    rcases List.mem_append.mp hx with hx | hx
    · obtain ⟨r, hr, hrest⟩ := h.live_row x hx
      exact ⟨r, List.mem_append_left _ hr, hrest⟩
    · rw [List.mem_singleton.mp hx]
      refine ⟨_, List.mem_append_right _ (List.mem_singleton_self _), rfl, rfl, rfl, ?_, le_rfl⟩
      simp [hs]
  approved_live r hr hrs := by
    rcases List.mem_append.mp hr with hr | hr
    · obtain ⟨x, hx, hrest⟩ := h.approved_live r hr hrs
      exact ⟨x, List.mem_append_left _ hx, hrest⟩
    · rw [List.mem_singleton.mp hr]
      exact ⟨_, List.mem_append_right _ (List.mem_singleton_self _), rfl, rfl, iff_of_true rfl rfl⟩
  created_live r hr := by
    rcases List.mem_append.mp hr with hr | hr
    · obtain ⟨x, hx, hrest⟩ := h.created_live r hr
      exact ⟨x, List.mem_append_left _ hx, hrest⟩
    · rw [List.mem_singleton.mp hr]
      exact ⟨_, List.mem_append_right _ (List.mem_singleton_self _), rfl, rfl, rfl⟩
  -- nothing else of the entity is live yet
  created_first x hx y hy ht hid hc hne := by
    have hother : ∀ z ∈ live, z.entityType = new.entityType → z.entityId ≠ new.entityId := by
      intro z hz hzt hzid
      obtain ⟨r, hr, -, hrt, hrid, -⟩ := h.live_row z hz
      exact hfresh r hr (hrt.trans hzt) (hrid.trans hzid)
    rcases List.mem_append.mp hx with hx | hx
    · rcases List.mem_append.mp hy with hy | hy
      · exact h.created_first x hx y hy ht hid hc hne
      · rw [List.mem_singleton.mp hy] at ht hid
        exact absurd hid (hother x hx ht)
    · rcases List.mem_append.mp hy with hy | hy
      · rw [List.mem_singleton.mp hx] at ht hid
        exact absurd hid.symm (hother y hy ht.symm)
      · rw [List.mem_singleton.mp hx, List.mem_singleton.mp hy] at hne
        exact absurd rfl hne
  handled_after r hr t hh x hx hc ht hid := by
    rcases List.mem_append.mp hr with hr | hr
    · rcases List.mem_append.mp hx with hx | hx
      · exact h.handled_after r hr t hh x hx hc ht hid
      · rw [List.mem_singleton.mp hx] at ht hid
        exact absurd hid.symm (hfresh r hr ht.symm)
    · rw [List.mem_singleton.mp hr] at hh
      cases hh
  -- what is live went live before the clock of this step
  time_inj x hx y hy ht hid htime := by
    rcases List.mem_append.mp hx with hx | hx
    · rcases List.mem_append.mp hy with hy | hy
      · exact h.time_inj x hx y hy ht hid htime
      · have hlt := h.live_lt x hx
        rw [List.mem_singleton.mp hy] at htime
        simp only at htime
        omega
    · rcases List.mem_append.mp hy with hy | hy
      · have hlt := h.live_lt y hy
        rw [List.mem_singleton.mp hx] at htime
        simp only at htime
        omega
      · rw [List.mem_singleton.mp hx, List.mem_singleton.mp hy]

end AddCorrection

/-- A decision, perhaps not the first one; the correction becomes live if it is approved. -/
theorem decide (h : Archive w live) {d : Decision D} {p : Correction} (hp : p ∈ w.corrections)
    (hid : d.correction.id = p.id) (hnow : d.handledAt = w.clock)
    (approver : User) (entities : List (Entity D)) (duration : ℕ) :
    Archive ((w.decide d approver entities).later duration)
      (live ++ if d.method = .Approve then
        [⟨p.entityType, p.entityId, p.id, w.clock, false⟩] else []) := by
  -- only the row of the decision is updated
  have hkept : ∀ r ∈ w.corrections, r.id ≠ p.id → d.update r = r := by
    intro r _ hne
    apply if_neg
    rw [hid]
    exact hne
  have hnew : d.update p = { p with status := d.method.status, handledAt := some w.clock } := by
    rw [← hnow]
    exact if_pos hid.symm
  have hrows : ∀ r ∈ w.corrections.map d.update,
      r = { p with status := d.method.status, handledAt := some w.clock } ∨
        r ∈ w.corrections ∧ r.id ≠ p.id := by
    intro r hr
    obtain ⟨r, hmem, rfl⟩ := List.mem_map.mp hr
    by_cases heq : r.id = p.id
    · rw [h.wf.eq_of_id hmem hp heq]
      exact Or.inl hnew
    · rw [hkept r hmem heq]
      exact Or.inr ⟨hmem, heq⟩
  have hlive : ∀ x ∈ live ++ (if d.method = .Approve then
      [(⟨p.entityType, p.entityId, p.id, w.clock, false⟩ : Publication)] else []),
      x ∈ live ∨ d.method = .Approve ∧ x = ⟨p.entityType, p.entityId, p.id, w.clock, false⟩ := by
    intro x hx
    rcases List.mem_append.mp hx with hx | hx
    · exact Or.inl hx
    · split at hx
      · next hm => exact Or.inr ⟨hm, List.mem_singleton.mp hx⟩
      · cases hx
  refine
    { wf := (h.wf.decide d approver entities).later duration
      revised := ?_, stored := ?_, pending := ?_, rejected := ?_, live_lt := ?_, live_row := ?_
      approved_live := ?_, created_live := ?_, created_first := ?_, handled_after := ?_
      time_inj := ?_ }
  · intro r hr
    rcases hrows r hr with rfl | ⟨hr, -⟩
    · exact h.revised p hp
    · exact h.revised r hr
  · intro v hv r hr hrid
    rcases hrows r hr with rfl | ⟨hr, -⟩
    · exact h.stored v hv p hp hrid
    · exact h.stored v hv r hr hrid
  · intro r hr hrs
    rcases hrows r hr with rfl | ⟨hr, -⟩
    · exact absurd hrs d.method.status_ne_pending
    · exact h.pending r hr hrs
  · intro r hr hrs
    rcases hrows r hr with rfl | ⟨hr, -⟩
    · rfl
    · exact h.rejected r hr hrs
  · intro x hx
    have hclock : w.clock < ((w.decide d approver entities).later duration).clock := by
      simp only [World.later, World.decide]
      omega
    rcases hlive x hx with hx | ⟨-, rfl⟩
    · exact Nat.lt_trans (h.live_lt x hx) hclock
    · exact hclock
  · intro x hx
    rcases hlive x hx with hold | ⟨-, rfl⟩
    · obtain ⟨r, hr, hrid, hrt, hri, hrest⟩ := h.live_row x hold
      by_cases heq : r.id = p.id
      · -- it went live before this decision
        obtain rfl := h.wf.eq_of_id hr hp heq
        refine ⟨d.update r, List.mem_map_of_mem hr, ?_⟩
        rw [hnew]
        exact ⟨hrid, hrt, hri, d.method.status_ne_pending, (h.live_lt x hold).le⟩
      · refine ⟨r, ?_, hrid, hrt, hri, hrest⟩
        rw [← hkept r hr heq]
        exact List.mem_map_of_mem hr
    · refine ⟨d.update p, List.mem_map_of_mem hp, ?_⟩
      rw [hnew]
      exact ⟨rfl, rfl, rfl, d.method.status_ne_pending, le_rfl⟩
  · intro r hr hrs
    rcases hrows r hr with rfl | ⟨hr, -⟩
    · have hm : d.method = .Approve := by
        cases hm : d.method with
        | Approve => rfl
        | Reject => simp [hm, HandleCorrectionMethod.status] at hrs
      exact ⟨⟨p.entityType, p.entityId, p.id, w.clock, false⟩, by simp [hm], rfl, rfl, by simp⟩
    · obtain ⟨x, hx, hrest⟩ := h.approved_live r hr hrs
      exact ⟨x, List.mem_append_left _ hx, hrest⟩
  · intro r hr
    have hold : ∃ x ∈ live, x.created ∧ x.entityType = r.entityType ∧ x.entityId = r.entityId := by
      rcases hrows r hr with rfl | ⟨hr, -⟩
      · exact h.created_live p hp
      · exact h.created_live r hr
    obtain ⟨x, hx, hrest⟩ := hold
    exact ⟨x, List.mem_append_left _ hx, hrest⟩
  · intro x hx y hy ht hi hc hne
    rcases hlive x hx with hx | ⟨-, rfl⟩
    · rcases hlive y hy with hy | ⟨-, rfl⟩
      · exact h.created_first x hx y hy ht hi hc hne
      · exact h.live_lt x hx
    · cases hc
  · intro r hr t hh x hx hc ht hi
    rcases hlive x hx with hx | ⟨-, rfl⟩
    · rcases hrows r hr with rfl | ⟨hr, -⟩
      · rw [← Option.some.inj hh]
        exact h.live_lt x hx
      · exact h.handled_after r hr t hh x hx hc ht hi
    · cases hc
  · intro x hx y hy ht hi htime
    rcases hlive x hx with hx | ⟨-, rfl⟩
    · rcases hlive y hy with hy | ⟨-, rfl⟩
      · exact h.time_inj x hx y hy ht hi htime
      · exact absurd htime (ne_of_lt (h.live_lt x hx))
    · rcases hlive y hy with hy | ⟨-, rfl⟩
      · exact absurd htime.symm (ne_of_lt (h.live_lt y hy))
      · rfl

theorem create (h : Archive w live) (entityType : EntityType) (new : NewCorrection D)
    (duration : ℕ) : Archive ((w.create entityType new).later duration)
      (live ++ w.publishes (.create entityType new)) := by
  have hadded := (h.addEntity entityType new.data).addHistory entityType new.data
  refine hadded.addCreated rfl ?_ ?_ ?_ ?_ duration
  · exact w.lt_entitySeq entityType new.data
  · intro r hr ht hid
    have hlt := h.wf.entities_lt r hr
    rw [ht, hid] at hlt
    exact lt_irrefl _ hlt
  · exact (w.addEntity entityType new.data).lt_historySeq entityType
  · exact ⟨_, List.mem_append_right _ (List.mem_singleton_self _), rfl, rfl⟩

theorem upsert (h : Archive w live) (entityType : EntityType) (id : EntityId)
    (new : NewCorrection D) : Archive (w.upsert entityType id new) live := by
  have hadded := h.addHistory entityType new.data
  have hseq := w.lt_historySeq entityType
  have hstored : ∃ history ∈ (w.addHistory entityType new.data).histories,
      history.entityType = entityType ∧ history.id = w.historySeq entityType :=
    ⟨_, List.mem_append_right _ (List.mem_singleton_self _), rfl, rfl⟩
  unfold World.upsert
  split
  · exact h.drawHistory entityType
  · next previous hl =>
    obtain ⟨hmem, hid, htype⟩ := findLatest_mem hl
    split
    · split
      · exact hadded.addPending (p := previous) hmem rfl htype.symm hid.symm hseq hstored
      · exact h.drawHistory entityType
    · exact h.drawHistory entityType
    · refine hadded.addRevision (p := previous) hmem ?_ ?_
      · rw [htype]
        exact hseq
      · rw [htype]
        exact hstored

/-- What `approve` and `reject` decide. -/
theorem decision_eq_some {method : HandleCorrectionMethod} {id : CorrectionId} {approver : User}
    {d : Decision D} {entities : List (Entity D)}
    (hd : w.decision method id approver = some (d, entities)) :
    ∃ r, findById w.corrections id = some r ∧ d.correction.id = r.id ∧
      d.correction.entityType = r.entityType ∧ d.correction.entityId = r.entityId ∧
      d.method = method ∧ d.handledAt = w.clock ∧ (d.history.isSome ↔ method = .Approve) := by
  unfold World.decision at hd
  obtain ⟨r, hr, hd⟩ := Option.bind_eq_some_iff.mp hd
  refine ⟨r, hr, ?_⟩
  split at hd
  · cases hd
  · cases method with
    | Reject =>
      obtain ⟨rfl, -⟩ := Prod.mk.inj (Option.some.inj hd)
      simp
    | Approve =>
      obtain ⟨revision, -, hd⟩ := Option.bind_eq_some_iff.mp hd
      obtain ⟨history, -, hd⟩ := Option.bind_eq_some_iff.mp hd
      obtain ⟨es, -, hd⟩ := Option.map_eq_some_iff.mp hd
      obtain ⟨rfl, -⟩ := Prod.mk.inj hd
      simp

theorem handle (h : Archive w live) (method : HandleCorrectionMethod) (id : CorrectionId)
    (approver : User) (duration : ℕ) : Archive ((w.handle method id approver).later duration)
      (live ++ w.publishes (.handle method id approver)) := by
  unfold World.handle World.publishes
  cases hd : w.decision method id approver with
  | none => simpa [hd] using h.later duration
  | some x =>
    obtain ⟨d, entities⟩ := x
    obtain ⟨r, hr, hid, ht, hi, hm, hnow, hhistory⟩ := decision_eq_some hd
    have hdecided := h.decide (List.mem_of_find?_eq_some hr) hid hnow approver entities duration
    have hiff : d.history.isSome ↔ d.method = .Approve := by rw [hhistory, hm]
    simpa [hd, hiff, hid, ht, hi] using hdecided

theorem transact (h : Archive w live) {r : Request D} {outcome : Outcome}
    (ht : transact w r = some (w', outcome)) : Archive w' (live ++ w.publishes r.input) := by
  obtain ⟨input, duration⟩ := r
  obtain ⟨v, hv, rfl⟩ := transact_eq_some h.wf ht
  cases input with
  | create entityType new =>
    cases hv
    exact h.create entityType new duration
  | upsert entityType id new =>
    cases hv
    simpa [World.publishes] using (h.upsert entityType id new).later duration
  | handle method id approver =>
    cases hv
    exact h.handle method id approver duration
  | ok => cases hv
  | fail => cases hv

theorem run (h : Archive w live) {rs : List (Request D)}
    (hr : runPublishing w live rs = some (w', live')) : Archive w' live' := by
  induction rs generalizing w live with
  | nil =>
    cases hr
    exact h
  | cons r rs ih =>
    obtain ⟨⟨v, outcome⟩, ht, hr⟩ := Option.bind_eq_some_iff.mp hr
    exact ih (h.transact ht) hr

end Archive

end Archive

structure World.Empty (w : World D) : Prop where
  unlocked : ∀ k, w.locks k = none
  corrections : w.corrections = []
  revisions : w.revisions = []

/-- An entity has no correction but the creating one, and none is open. -/
def World.Lone (w : World D) : Prop :=
  ∀ r ∈ w.corrections, r.status ≠ .Pending ∧ ∀ s ∈ w.corrections,
    s.entityType = r.entityType → s.entityId = r.entityId → s = r

section Empty

variable {w w' : World D} {live live' : List Publication}

namespace World.Lone

theorem create (h : w.Lone) (hwf : w.Wf) (entityType : EntityType) (new : NewCorrection D) :
    (w.create entityType new).Lone := by
  have hfresh : ∀ r ∈ w.corrections, r.entityType = entityType →
      r.entityId ≠ w.entitySeq entityType := by
    intro r hr ht hid
    have hlt := hwf.entities_lt r hr
    rw [ht, hid] at hlt
    exact lt_irrefl _ hlt
  intro r hr
  rcases List.mem_append.mp hr with hr | hr
  · refine ⟨(h r hr).1, fun s hs ht hid => ?_⟩
    rcases List.mem_append.mp hs with hs | hs
    · exact (h r hr).2 s hs ht hid
    · rw [List.mem_singleton.mp hs] at ht hid
      exact absurd hid.symm (hfresh r hr ht.symm)
  · obtain rfl := List.mem_singleton.mp hr
    refine ⟨nofun, fun s hs ht hid => ?_⟩
    rcases List.mem_append.mp hs with hs | hs
    · exact absurd hid (hfresh s hs ht)
    · exact List.mem_singleton.mp hs

/-- A submission finds no open correction to join. -/
theorem upsert (h : w.Lone) (entityType : EntityType) (id : EntityId) (new : NewCorrection D) :
    (w.upsert entityType id new).Lone := by
  have hsame : (w.upsert entityType id new).corrections = w.corrections := by
    unfold World.upsert
    split
    · rfl
    · next previous hl =>
      split
      · next hs => exact absurd hs (h previous (findLatest_mem hl).1).1
      · rfl
      · rfl
  rw [Lone, hsame]
  exact h

theorem handle (h : w.Lone) (method : HandleCorrectionMethod) (id : CorrectionId)
    (approver : User) : (w.handle method id approver).Lone := by
  unfold World.handle
  split
  · exact h
  · next d entities hd =>
    intro r hr
    obtain ⟨p, hp, rfl⟩ := List.mem_map.mp hr
    refine ⟨?_, ?_⟩
    · unfold Decision.update
      split
      · exact d.method.status_ne_pending
      · exact (h p hp).1
    · intro s hs ht hid
      obtain ⟨q, hq, rfl⟩ := List.mem_map.mp hs
      simp only [Decision.update_entityType, Decision.update_entityId] at ht hid
      rw [(h p hp).2 q hq ht hid]

theorem transact (h : w.Lone) (hwf : w.Wf) {r : Request D} {outcome : Outcome}
    (ht : transact w r = some (w', outcome)) : w'.Lone := by
  obtain ⟨input, duration⟩ := r
  obtain ⟨v, hv, rfl⟩ := transact_eq_some hwf ht
  cases input with
  | create entityType new =>
    cases hv
    exact h.create hwf entityType new
  | upsert entityType id new =>
    cases hv
    exact h.upsert entityType id new
  | handle method id approver =>
    cases hv
    exact h.handle method id approver
  | ok => cases hv
  | fail => cases hv

theorem run (h : w.Lone) (hwf : w.Wf) {rs : List (Request D)}
    (hr : runPublishing w live rs = some (w', live')) : w'.Lone := by
  induction rs generalizing w live with
  | nil =>
    cases hr
    exact h
  | cons r rs ih =>
    obtain ⟨⟨v, outcome⟩, ht, hr⟩ := Option.bind_eq_some_iff.mp hr
    exact ih (h.transact hwf ht) (hwf.transact ht) hr

end World.Lone

end Empty

end Thcdb.Corrections
