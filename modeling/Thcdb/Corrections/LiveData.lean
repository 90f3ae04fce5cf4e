import Thcdb.Corrections.AuditTrail

namespace Thcdb.Corrections
open Auth Interleaving Relational

variable {D : Type}

section Keys

variable {i : ℕ} {a : Input D} {w : World D} {c : Call D} {r : World D × Call D × List Event}

/-- A row that a step leaves in a table was there, or its transaction had written it. -/
theorem exec_tables (h : system.exec i a w c = some r) :
    (∀ x ∈ r.1.corrections, ∃ y, (y ∈ w.corrections ∨ y ∈ c.corrections) ∧ x.id = y.id ∧
      (x.entityType, x.entityId) = (y.entityType, y.entityId)) ∧
    ∀ x ∈ r.1.histories, x ∈ w.histories ∨ x ∈ c.histories := by
  rcases exec_cases h with ⟨hrows, -⟩ | ⟨tx, outcome, w', -, rfl, hcommit, rfl⟩
  · simp only [World.rows, Prod.mk.injEq] at hrows
    rw [hrows.2.1, hrows.2.2.1]
    exact ⟨fun x hx => ⟨x, Or.inl hx, rfl, rfl⟩, fun x hx => Or.inl hx⟩
  · obtain ⟨entities, -, rfl⟩ := Tx.commit_eq_some hcommit
    refine ⟨?_, fun x hx => List.mem_append.mp hx⟩
    intro x hx
    rcases List.mem_append.mp hx with hx | hx
    · obtain ⟨y, hy, rfl⟩ := List.mem_map.mp hx
      refine ⟨y, Or.inl hy, tx.update_id y, ?_⟩
      unfold Tx.update
      cases tx.decision <;> simp
    · exact ⟨x, Or.inr hx, rfl, rfl⟩

abbrev correctionTable (w : World D) : Set Correction := {r | r ∈ w.corrections}

abbrev historyTable (w : World D) : Set (History D) := {h | h ∈ w.histories}

/-- The id of a correction tells its entity, in its table and in every transaction under way. -/
abbrev CorrectionIds (c : Config D) : Prop :=
  Issued (fun _ => ()) Correction.id (fun r => (r.entityType, r.entityId))
    (everywhere correctionTable (fun l => {r | r ∈ l.corrections}) c) fun _ =>
      c.shared.correctionSeq

/-- The id of a history tells its data. -/
abbrev HistoryIds (c : Config D) : Prop :=
  Issued History.entityType History.id History.data
    (everywhere historyTable (fun l => {h | h ∈ l.histories}) c) c.shared.historySeq

theorem CorrectionIds.next {c d : Config D} {a : Act (Input D) Env} (h : CorrectionIds c)
    (hn : system.next c a = some d) : CorrectionIds d := by
  refine Issued.next (fun w _ => w.correctionSeq) h ?_ ?_ hn
  · intro i x w l s l' es he
    apply Draws.of_table
    · intro r hr
      obtain ⟨y, hy, hid, hpart⟩ := (exec_tables he).1 r hr
      exact ⟨y, hy, rfl, hid, hpart⟩
    · rcases (exec_new he).1 with ⟨hseq, hnew⟩ | ⟨y, hid, hseq, hnew⟩
      · exact Or.inl ⟨hnew, by funext; exact hseq⟩
      · refine Or.inr ⟨y, fun r hr => ?_, hid, by funext; simpa using hseq⟩
        exact (List.mem_append.mp (hnew hr)).imp_right List.mem_singleton.mp
  · rintro ⟨t⟩ w s hs
    obtain rfl := Option.some.inj hs
    exact ⟨rfl, rfl⟩

theorem HistoryIds.next {c d : Config D} {a : Act (Input D) Env} (h : HistoryIds c)
    (hn : system.next c a = some d) : HistoryIds d := by
  refine Issued.next World.historySeq h ?_ ?_ hn
  · intro i x w l s l' es he
    apply Draws.of_table
    · exact fun r hr => ⟨r, (exec_tables he).2 r hr, .refl r⟩
    · rcases (exec_new he).2 with ⟨hseq, hnew⟩ | ⟨y, hid, hseq, hnew⟩
      · exact Or.inl ⟨hnew, hseq⟩
      · refine Or.inr ⟨y, fun r hr => ?_, hid, hseq⟩
        exact (List.mem_append.mp (hnew hr)).imp_right List.mem_singleton.mp
  · rintro ⟨t⟩ w s hs
    obtain rfl := Option.some.inj hs
    exact ⟨rfl, rfl⟩

end Keys

section Values

variable {as : List (Act (Input D) Env)} {i : ℕ} {w₀ w w' : World D}

theorem Charged.mono {users users' : List CorrectionUser} {method : HandleCorrectionMethod}
    {id : CorrectionId} (h : Charged as users i method id) (hu : users ⊆ users') :
    Charged as users' i method id := by
  obtain ⟨approver, ha, hmem⟩ := h
  exact ⟨approver, ha, hu hmem⟩

theorem Accounted.mono {e : Event} (h : Accounted as w₀ w e) (hg : w.Grows w') :
    Accounted as w₀ w' e := by
  cases e with
  | decided j id status at' =>
    obtain ⟨method, hcharged, hstatus⟩ := h
    exact ⟨method, hcharged.mono hg.correctionUsers, hstatus⟩
  | applied j id historyId =>
    obtain ⟨hcharged, r, x, v, hr, hx, hv, hid, hhid, hrest⟩ := h
    obtain ⟨r', hr', htype, hentity⟩ := hg.correction hr
    refine ⟨hcharged.mono hg.correctionUsers, r', x, v, hr', ?_, hg.revisions hv, hid, hhid, ?_⟩
    · rw [htype]
      exact hg.history hx
    · rwa [htype, hentity]

/-- What an event has written is told by tables that only grow. -/
theorem Accounted.written_eq {e : Event} (h : Accounted as w₀ w e) (hg : w.Grows w') :
    w'.written e = w.written e := by
  cases e with
  | decided => rfl
  | applied j id historyId =>
    obtain ⟨-, r, x, v, hr, hx, -⟩ := h
    obtain ⟨r', hr', htype, hentity⟩ := hg.correction hr
    simp [World.written, hr, hr', htype, hentity, hx, hg.history hx]

theorem findHistory_mem {histories : List (History D)} {entityType : EntityType} {id : HistoryId}
    {h : History D} (hh : findHistory histories entityType id = some h) :
    h ∈ histories ∧ h.entityType = entityType ∧ h.id = id := by
  have hfound := List.find?_some hh
  exact ⟨List.mem_of_find?_eq_some hh, by simpa using hfound⟩

/-- What a decision applies is of the kind of its entity. -/
theorem Decision.Sound.fits {d : Decision D} {users : List CorrectionUser} {h : History D}
    (hd : d.Sound as i w users) (hhistories : ∀ h ∈ w.histories, h.data.Fits h.entityType)
    (hh : d.history = some h) : h.data.Fits d.correction.entityType := by
  obtain ⟨hmem, htype, -⟩ := findHistory_mem (hd.history h hh).2.1
  rw [← htype]
  exact hhistories h hmem

theorem fits_commit {tx : Tx D} {entities : List (Entity D)}
    (hd : ∀ d, tx.decision = some d → d.Sound as i w tx.correctionUsers)
    (hentities : ∀ e ∈ w.entities, e.data.Fits e.entityType)
    (hhistories : ∀ h ∈ w.histories, h.data.Fits h.entityType)
    (ha : tx.apply w.entities = some entities) : ∀ e ∈ entities, e.data.Fits e.entityType := by
  unfold Tx.apply at ha
  cases hdec : tx.decision with
  | none =>
    rw [hdec] at ha
    obtain rfl := Option.some.inj ha
    exact hentities
  | some d =>
    rw [hdec] at ha
    simp only [Option.elim_some, Decision.apply] at ha
    cases hh : d.history with
    | none =>
      rw [hh] at ha
      obtain rfl := Option.some.inj ha
      exact hentities
    | some h =>
      rw [hh] at ha
      exact fits_applyUpdate hentities ((hd d hdec).fits hhistories hh) ha

/-- What a commit makes of a slot that has a row is what its events say. -/
theorem shown_apply {tx : Tx D} {entities : List (Entity D)}
    (hd : ∀ d, tx.decision = some d → d.Sound as i w tx.correctionUsers)
    (hentities : ∀ e ∈ w.entities, e.data.Fits e.entityType)
    (hhistories : ∀ h ∈ w.histories, h.data.Fits h.entityType)
    (ha : tx.apply w.entities = some entities) (hg : w.Grows w') (slot : Slot) :
    shown entities slot = (w.shows slot).map (fun x =>
      x.after (lastWrite (w'.writesAt slot) (tx.events i))) ∧
    ((w.shows slot) = none → lastWrite (w'.writesAt slot) (tx.events i) = none) := by
  unfold Tx.apply at ha
  unfold Tx.events
  cases hdec : tx.decision with
  | none =>
    rw [hdec] at ha
    obtain rfl := Option.some.inj ha
    exact ⟨by simp [lastWrite], fun _ => rfl⟩
  | some d =>
    rw [hdec] at ha
    simp only [Option.elim_some, Decision.apply] at ha
    simp only [Option.elim_some, Decision.events]
    cases hh : d.history with
    | none =>
      rw [hh] at ha
      obtain rfl := Option.some.inj ha
      simp [lastWrite, World.writesAt, World.written]
    | some h =>
      rw [hh] at ha
      have hsound := hd d hdec
      obtain ⟨r, hr, htype, hentity⟩ := hsound.filed
      obtain ⟨-, hfound, -⟩ := hsound.history h hh
      obtain ⟨hshown, hsome⟩ :=
        shown_applyUpdate hentities (hsound.fits hhistories hh) ha slot
      obtain ⟨r', hr', htype', hentity'⟩ := hg.correction hr
      have hwrites : lastWrite (w'.writesAt slot) [.decided i d.correction.id d.method.status
          d.handledAt, .applied i d.correction.id h.id] =
          if h.data.slot d.correction.entityType d.correction.entityId = slot then
            some h.data.content else none := by
        have hwritten : w'.written (.applied i d.correction.id h.id) =
            some (h.data.slot d.correction.entityType d.correction.entityId, h.data.content) := by
          simp [World.written, hr', htype'.trans htype, hentity'.trans hentity, hg.history hfound]
        rw [lastWrite, List.filterMap_cons_none (by rfl)]
        split_ifs with hs
        · simp [World.writesAt, hwritten, hs]
        · simp [World.writesAt, hwritten, hs]
      have hevents : Event.decided i d.correction.id d.method.status d.handledAt ::
          (Option.map (fun h => Event.applied i d.correction.id h.id) (some h)).toList =
          [.decided i d.correction.id d.method.status d.handledAt,
            .applied i d.correction.id h.id] := rfl
      rw [hevents, hwrites, hshown]
      refine ⟨?_, ?_⟩
      · congr 1
        funext x
        split_ifs <;> rfl
      · intro hnone
        rw [if_neg]
        rintro rfl
        rw [World.shows] at hnone
        rw [hnone] at hsome
        cases hsome

/-- What the slot shows is what it was first given and the log has written since. -/
structure Shows (as : List (Act (Input D) Env)) (w₀ w : World D) (log : List Event) (slot : Slot) :
    Prop where
  kept : ∀ x, w₀.shows slot = some x →
    w.shows slot = some (x.after (lastWrite (w.writesAt slot) log))
  created : ∀ y, w₀.shows slot = none → w.shows slot = some y →
    ∃ x, Created as slot x ∧ y = x.after (lastWrite (w.writesAt slot) log)
  absent : w.shows slot = none → lastWrite (w.writesAt slot) log = none

theorem Shows.of_rows {log : List Event} {slot : Slot} (h : Shows as w₀ w log slot)
    (hrows : w'.rows = w.rows) : Shows as w₀ w' log slot := by
  simp only [World.rows, Prod.mk.injEq] at hrows
  obtain ⟨hentities, hhistories, hcorrections, -, -⟩ := hrows
  have hwrites : w'.writesAt slot = w.writesAt slot := by
    funext e
    cases e with
    | decided => rfl
    | applied => simp [World.writesAt, World.written, hhistories, hcorrections]
  have hshows : w'.shows slot = w.shows slot := by rw [World.shows, hentities]
  refine ⟨?_, ?_, ?_⟩
  · rw [hwrites, hshows]
    exact h.kept
  · rw [hwrites, hshows]
    exact h.created
  · rw [hwrites, hshows]
    exact h.absent

/-- Events that write what the rows become, and then rows that requests have created. -/
theorem Shows.commit {log es : List Event} {slot : Slot} {entities new : List (Entity D)}
    (h : Shows as w₀ w log slot) (hlog : ∀ e ∈ log, w'.written e = w.written e)
    (hrows : w'.entities = entities ++ new)
    (hshown : shown entities slot = (w.shows slot).map fun x =>
      x.after (lastWrite (w'.writesAt slot) es))
    (hnone : w.shows slot = none → lastWrite (w'.writesAt slot) es = none)
    (hnew : ∀ e ∈ new, ∃ j n, .call j (.create e.entityType n) ∈ as ∧ n.data = e.data) :
    Shows as w₀ w' (log ++ es) slot := by
  have hold : lastWrite (w'.writesAt slot) log = lastWrite (w.writesAt slot) log := by
    apply lastWrite_congr
    intro e he
    rw [World.writesAt, World.writesAt, hlog e he]
  have hlast : lastWrite (w'.writesAt slot) (log ++ es) =
      (lastWrite (w'.writesAt slot) es).or (lastWrite (w.writesAt slot) log) := by
    rw [lastWrite_append, hold]
  have hshows : w'.shows slot = ((w.shows slot).map fun x =>
      x.after (lastWrite (w'.writesAt slot) es)).or (shown new slot) := by
    rw [World.shows, hrows, shown_append, hshown]
  refine ⟨?_, ?_, ?_⟩
  · intro x hx
    rw [hshows, h.kept x hx, hlast, Option.map_some, Option.some_or, Content.after_or]
  · intro y h₀ hy
    rw [hshows] at hy
    rw [hlast]
    cases hw : w.shows slot with
    | some z =>
      obtain ⟨x, hx, rfl⟩ := h.created z h₀ hw
      rw [hw, Option.map_some, Option.some_or] at hy
      refine ⟨x, hx, ?_⟩
      rw [Content.after_or]
      exact (Option.some.inj hy).symm
    | none =>
      -- the row is one of the new ones, and no event has written it before
      rw [hw, Option.map_none, Option.none_or] at hy
      obtain ⟨e, he, hslot, rfl⟩ := mem_of_shown hy
      obtain ⟨j, n, hj, hdata⟩ := hnew e he
      rw [hnone hw, h.absent hw]
      refine ⟨e.data.content, ⟨j, e.entityType, e.id, n, hj, ?_, ?_⟩, rfl⟩
      · rw [hdata]
        exact hslot
      · rw [hdata]
  · intro hw'
    rw [hshows, Option.or_eq_none_iff, Option.map_eq_none_iff] at hw'
    rw [hlast, hnone hw'.1, h.absent hw'.1]
    rfl

end Values

/-- Everything the tables and the log say is vouched for by the requests of the run. -/
structure Audit (w₀ : World D) (as : List (Act (Input D) Env)) (c : Config D) : Prop where
  calls : ∀ i, (c.calls i).Sound as i c.shared
  corrections : CorrectionIds c
  histories : HistoryIds c
  entities_fit : ∀ e ∈ c.shared.entities, e.data.Fits e.entityType
  histories_fit : ∀ h ∈ c.shared.histories, h.data.Fits h.entityType
  revisions : ∀ v ∈ c.shared.revisions,
    v ∈ w₀.revisions ∨ Attested as c.shared.corrections c.shared.histories v
  log : ∀ e ∈ c.log, Accounted as w₀ c.shared e
  slots : ∀ slot, Shows as w₀ c.shared c.log slot

namespace Audit

variable {as : List (Act (Input D) Env)} {w₀ : World D} {c d : Config D}

theorem initial {w : World D} (hw : w.Founded) : Audit w as (initial w) where
  calls _ := trivial
  corrections := by
    refine ⟨?_, ?_⟩
    · rintro r (hr | ⟨i, hr⟩)
      · exact hw.corrections_lt r hr
      · cases hr
    · rintro r (hr | ⟨i, hr⟩) s (hs | ⟨j, hs⟩) - hid
      · rw [List.inj_on_of_nodup_map hw.corrections_nodup hr hs hid]
      · cases hs
      · cases hr
      · cases hr
  histories := by
    refine ⟨?_, ?_⟩
    · rintro h (hh | ⟨i, hh⟩)
      · exact hw.histories_lt h hh
      · cases hh
    · rintro h (hh | ⟨i, hh⟩) k (hk | ⟨j, hk⟩) htype hid
      · rw [List.inj_on_of_nodup_map hw.histories_nodup hh hk (Prod.ext htype hid)]
      · cases hk
      · cases hh
      · cases hh
  entities_fit := hw.entities_fit
  histories_fit := hw.histories_fit
  revisions v hv := Or.inl hv
  log e he := by cases he
  slots slot := by
    refine ⟨fun x hx => hx, fun y h₀ hy => ?_, fun _ => rfl⟩
    have hy' : w.shows slot = some y := hy
    rw [h₀] at hy'
    cases hy'

/-- The decision that a commit publishes is accounted for in the tables that it leaves. -/
theorem accounted (h : Audit w₀ as c) {i : ℕ} {tx : Tx D} {outcome : Outcome} {w' : World D}
    (hc : c.calls i = .commit tx outcome) (hcommit : tx.commit c.shared = some w') :
    ∀ e ∈ tx.events i, Accounted as w₀ (w'.release i) e := by
  have hg := World.Grows.of_commit hcommit i
  have hsound := h.calls i
  rw [hc] at hsound
  obtain ⟨entities, -, rfl⟩ := Tx.commit_eq_some hcommit
  intro e he
  unfold Tx.events at he
  cases hdec : tx.decision with
  | none =>
    rw [hdec] at he
    cases he
  | some d =>
    rw [hdec] at he
    have hd := hsound.2 d hdec
    have husers : tx.correctionUsers ⊆ c.shared.correctionUsers ++ tx.correctionUsers :=
      List.subset_append_right ..
    rcases List.mem_cons.mp he with rfl | he
    · exact ⟨d.method, hd.charged.mono husers, rfl⟩
    · obtain ⟨x, hx, rfl⟩ := Option.map_eq_some_iff.mp (Option.mem_toList.mp he)
      obtain ⟨hm, hfound, v, hv, hid, hhid⟩ := hd.history x hx
      obtain ⟨r, hr, htype, hentity⟩ := hd.filed
      have hcharged := hd.charged
      rw [hm] at hcharged
      obtain ⟨hmem, hxtype, -⟩ := findHistory_mem hfound
      obtain ⟨r', hr', htype', hentity'⟩ := hg.correction hr
      refine ⟨hcharged.mono husers, r', x, v, hr', ?_, hg.revisions hv, hid, hhid, ?_⟩
      · rw [htype', htype]
        exact hg.history hfound
      rcases h.revisions v hv with hold | ⟨s, hs, hsid, y, hy, hytype, hyid, new, hsub, hrest⟩
      · exact Or.inl hold
      -- the ids tell that this is the correction and this the history that was submitted
      have hsame : (s.entityType, s.entityId) = (r.entityType, r.entityId) := by
        apply h.corrections.eq s (Or.inl hs) r (Or.inl (List.mem_of_find?_eq_some hr)) rfl
        rw [hsid, hid, findById_id hr]
      obtain ⟨hstype, hsentity⟩ := Prod.mk.inj hsame
      have hdata : y.data = x.data := by
        apply h.histories.eq y (Or.inl hy) x (Or.inl hmem)
        · rw [hytype, hstype, htype, hxtype]
        · rw [hyid, hhid]
      refine Or.inr ⟨new, ?_, ?_⟩
      · rw [htype', hentity', ← hstype, ← hsentity]
        exact hsub
      · rw [← hdata]
        exact hrest

theorem next (h : Audit w₀ as c) (htyped : ∀ a ∈ as, Typed a) {a : Act (Input D) Env}
    (ha : a ∈ as) (hn : system.next c a = some d) : Audit w₀ as d := by
  have hcorrections := h.corrections.next hn
  have hhistories := h.histories.next hn
  cases a with
  | env b =>
    obtain ⟨t⟩ := b
    obtain ⟨s, hs, rfl⟩ := System.next_env_eq_some.mp hn
    obtain rfl := Option.some.inj hs
    have hg : c.shared.Grows { c.shared with clock := c.shared.clock + t } := .of_rows rfl
    exact ⟨fun i => (h.calls i).mono hg, hcorrections, hhistories, h.entities_fit, h.histories_fit,
      h.revisions, fun e he => (h.log e he).mono hg, fun slot => (h.slots slot).of_rows rfl⟩
  | call i x =>
    obtain ⟨w, l, es, he, rfl⟩ := System.next_call_eq_some.mp hn
    have hg := World.Grows.of_exec he
    have hcalls : ∀ j, (Function.update c.calls i l j).Sound as j w := by
      intro j
      by_cases hj : j = i
      · subst hj
        rw [Function.update_self]
        exact (h.calls j).exec htyped ha he
      · rw [Function.update_of_ne hj]
        exact (h.calls j).mono hg
    have hlog : ∀ e ∈ c.log, Accounted as w₀ w e := fun e he => (h.log e he).mono hg
    rcases exec_cases he with ⟨hrows, rfl⟩ | ⟨tx, outcome, w', rfl, hc, hcommit, hend⟩
    · -- nothing has been committed
      have hslots : ∀ slot, Shows as w₀ w c.log slot := fun slot => (h.slots slot).of_rows hrows
      simp only [World.rows, Prod.mk.injEq] at hrows
      obtain ⟨hentities, hhists, hcorrs, -, hrevisions⟩ := hrows
      refine ⟨hcalls, hcorrections, hhistories, ?_, ?_, ?_, ?_, ?_⟩
      · rw [hentities]
        exact h.entities_fit
      · rw [hhists]
        exact h.histories_fit
      · rw [hrevisions, hhists, hcorrs]
        exact h.revisions
      · rw [List.append_nil]
        exact hlog
      · rw [List.append_nil]
        exact hslots
    · have haccounted := h.accounted hc hcommit
      have hsound := h.calls i
      rw [hc] at hsound
      obtain ⟨hsound, hdecision⟩ := hsound
      obtain ⟨entities, happly, rfl⟩ := Tx.commit_eq_some hcommit
      cases hend
      refine ⟨hcalls, hcorrections, hhistories, ?_, ?_, ?_, ?_, ?_⟩
      · intro e he
        rcases List.mem_append.mp he with he | he
        · exact fits_commit hdecision h.entities_fit h.histories_fit happly e he
        · exact (hsound.entities e he).1
      · intro x hx
        rcases List.mem_append.mp hx with hx | hx
        · exact h.histories_fit x hx
        · exact hsound.histories x hx
      · intro v hv
        rcases List.mem_append.mp hv with hv | hv
        · exact (h.revisions v hv).imp_right fun hv => hv.mono (fun r hr => hg.mem_corrections hr)
            (List.subset_append_left ..)
        · refine Or.inr ((hsound.revisions v hv).mono ?_ (List.subset_append_right ..))
          intro r hr
          rcases List.mem_append.mp hr with hr | hr
          · exact hg.mem_corrections hr
          · exact ⟨r, List.mem_append_right _ hr, rfl, rfl, rfl⟩
      · intro e he
        rcases List.mem_append.mp he with he | he
        · exact hlog e he
        · exact haccounted e he
      · intro slot
        obtain ⟨hshown, hnone⟩ :=
          shown_apply hdecision h.entities_fit h.histories_fit happly hg slot
        exact (h.slots slot).commit (fun e he => (h.log e he).written_eq hg) rfl hshown hnone
          fun e he => (hsound.entities e he).2

theorem run (hw : w₀.Founded) (htyped : ∀ a ∈ as, Typed a)
    (h : system.run (Corrections.initial w₀) as = some d) : Audit w₀ as d :=
  System.run_induction (G := fun _ a => a ∈ as) (fun _ _ _ hx ha hn => hx.next htyped ha hn)
    (.initial hw) (System.meets_of_forall fun _ _ ha => ha) h

end Audit

end Thcdb.Corrections
