import Thcdb.Corrections.Service

namespace Thcdb.Corrections
open Auth Interleaving

variable {D : Type}

/-- The row stays as it is, or a pending correction is decided. -/
def Correction.Settles (r r' : Correction) : Prop :=
  r' = r ∨ r.status = .Pending ∧
    ∃ (m : HandleCorrectionMethod) (t : ℕ),
      r' = { r with status := m.status, handledAt := some t }

/-- The live data of an entity was overwritten from this correction. -/
def Event.applies (id : CorrectionId) : Event → Bool
  | .applied _ correctionId _ => correctionId = id
  | .decided .. => false

abbrev Config (D : Type) := Interleaving.Config (World D) (Call D) Event

def initial (w : World D) : Config D := ⟨w, fun _ => .idle, []⟩

/-- A decision is committed on a correction whose stored status is still pending. -/
def decidesPending (c : Config D) : Act (Input D) Env → Bool
  | .call i .ok =>
    match c.calls i with
    | .commit tx _ =>
      (tx.apply c.shared.entities).isNone || tx.decision.all fun d =>
        (findById c.shared.corrections d.correction.id).any (·.status = .Pending)
    | _ => true
  | _ => true

theorem Correction.Settles.refl (r : Correction) : r.Settles r := Or.inl rfl

/-- A decided correction is final. -/
theorem Correction.Settles.eq_of_decided {r r' : Correction} (h : r.Settles r')
    (hr : r.status ≠ .Pending) : r' = r := by
  rcases h with heq | ⟨hp, -⟩
  · exact heq
  · exact absurd hp hr

theorem Correction.Settles.trans {r s t : Correction} (h : r.Settles s) (h' : s.Settles t) :
    r.Settles t := by
  rcases h with rfl | ⟨hp, m, now, rfl⟩
  · exact h'
  · have hfinal := h'.eq_of_decided m.status_ne_pending
    exact Or.inr ⟨hp, m, now, hfinal⟩

theorem Correction.Settles.status_ne {r r' : Correction} (h : r.Settles r')
    (hr : r.status ≠ .Pending) : r'.status ≠ .Pending := by
  rw [h.eq_of_decided hr]
  exact hr

section Rows

@[simp] theorem Tx.update_id (tx : Tx D) (r : Correction) : (tx.update r).id = r.id := by
  unfold Tx.update
  cases tx.decision with
  | none => rfl
  | some d => exact d.update_id r

theorem Decision.settles_update {d : Decision D} {r : Correction}
    (h : r.id = d.correction.id → r.status = .Pending) : r.Settles (d.update r) := by
  unfold Decision.update
  split
  · next hid => exact Or.inr ⟨h hid, d.method, d.handledAt, rfl⟩
  · exact .refl r

theorem Decision.update_status_ne {d : Decision D} {r : Correction}
    (h : r.id = d.correction.id) : (d.update r).status ≠ .Pending := by
  unfold Decision.update
  rw [if_pos h]
  exact d.method.status_ne_pending

/-- An update that keeps the ids and an insert leave a row to be found where it was. -/
theorem findById_publish {rows new : List Correction} {id : CorrectionId} {r : Correction}
    (f : Correction → Correction) (hf : ∀ s, (f s).id = s.id) (h : findById rows id = some r) :
    findById (rows.map f ++ new) id = some (f r) := by
  have hmap : findById (rows.map f) id = (findById rows id).map f := by
    unfold findById
    rw [List.find?_map]
    congr 2
    funext s
    simp [hf]
  have hsome : findById (rows.map f) id = some (f r) := by rw [hmap, h, Option.map_some]
  unfold findById at *
  rw [List.find?_append, hsome, Option.some_or]

end Rows

/-- A committed decision finds its correction pending. -/
theorem pending_of_commit {c : Config D} {i : ℕ} {tx : Tx D} {outcome : Outcome}
    (hc : c.calls i = .commit tx outcome) (ha : (tx.apply c.shared.entities).isSome)
    (hg : decidesPending c (.call i .ok)) {d : Decision D} (hd : tx.decision = some d) :
    ∃ r, findById c.shared.corrections d.correction.id = some r ∧ r.status = .Pending := by
  have hany : (findById c.shared.corrections d.correction.id).any (·.status = .Pending) := by
    simpa [decidesPending, hc, hd, Option.isNone_eq_false_iff.mpr ha] using hg
  simpa using (Option.any_eq_true _ _).mp hany

/-- What one step makes of a committed row. -/
theorem settles_of_next {c d : Config D} {a : Act (Input D) Env} (hg : decidesPending c a)
    (hn : system.next c a = some d) {id : CorrectionId} {r : Correction}
    (hr : findById c.shared.corrections id = some r) :
    ∃ r', findById d.shared.corrections id = some r' ∧ r.Settles r' := by
  cases a with
  | env b =>
    obtain ⟨s, hs, rfl⟩ := System.next_env_eq_some.mp hn
    obtain rfl := Option.some.inj hs
    exact ⟨r, hr, .refl r⟩
  | call i x =>
    obtain ⟨w, l, es, he, rfl⟩ := System.next_call_eq_some.mp hn
    rcases exec_cases he with ⟨hsame, -⟩ | ⟨tx, outcome, w', rfl, hc, hcommit, hend⟩
    · exact ⟨r, by rw [World.corrections_eq hsame]; exact hr, .refl r⟩
    · obtain ⟨entities, ha, rfl⟩ := Tx.commit_eq_some hcommit
      cases hend
      refine ⟨tx.update r, findById_publish tx.update tx.update_id hr, ?_⟩
      cases hd : tx.decision with
      | none => simp [Tx.update, hd, Correction.Settles.refl]
      | some d =>
        obtain ⟨s, hs, hp⟩ := pending_of_commit hc (Option.isSome_of_eq_some ha) hg hd
        have hset : r.Settles (d.update r) := by
          apply Decision.settles_update
          intro hid
          -- the row that the decision is about is the one the guard has looked at
          rw [← hid, findById_id hr, hr] at hs
          rw [Option.some.inj hs]
          exact hp
        simpa [Tx.update, hd] using hset

/-- What a run makes of a committed row. -/
theorem settles_of_run {c d : Config D} {as : List (Act (Input D) Env)}
    (hg : system.Meets (fun c a => decidesPending c a) c as) (h : system.run c as = some d)
    {id : CorrectionId} {r : Correction} (hr : findById c.shared.corrections id = some r) :
    ∃ r', findById d.shared.corrections id = some r' ∧ r.Settles r' := by
  apply System.run_induction (I := fun x : Config D =>
    ∃ r', findById x.shared.corrections id = some r' ∧ r.Settles r') ?_ ⟨r, hr, .refl r⟩ hg h
  intro x a y ⟨r', hr', hset⟩ hga hn
  obtain ⟨r'', hr'', hset'⟩ := settles_of_next hga hn hr'
  exact ⟨r'', hr'', hset.trans hset'⟩

def applications (id : CorrectionId) (log : List Event) : ℕ := log.countP (Event.applies id)

/-- No correction was applied twice, and one that was is decided. -/
def AppliedOnce (c : Config D) : Prop :=
  ∀ id, applications id c.log = 0 ∨
    applications id c.log = 1 ∧
      ∃ r, findById c.shared.corrections id = some r ∧ r.status ≠ .Pending

theorem applications_events (tx : Tx D) (i : ℕ) (id : CorrectionId) :
    applications id (tx.events i) = 0 ∨
      applications id (tx.events i) = 1 ∧ ∃ d, tx.decision = some d ∧ d.correction.id = id := by
  unfold Tx.events applications
  cases hd : tx.decision with
  | none => exact Or.inl rfl
  | some d =>
    by_cases hid : d.correction.id = id
    · cases hh : d.history with
      | none => exact Or.inl (by simp [Decision.events, hh, Event.applies])
      | some h => exact Or.inr ⟨by simp [Decision.events, hh, Event.applies, hid], d, rfl, hid⟩
    · refine Or.inl ?_
      cases hh : d.history <;> simp [Decision.events, hh, Event.applies, hid]

theorem AppliedOnce.next {c d : Config D} {a : Act (Input D) Env} (h : AppliedOnce c)
    (hg : decidesPending c a) (hn : system.next c a = some d) : AppliedOnce d := by
  intro id
  -- a step that applies nothing leaves the count, and a final correction stays final
  have hkeep : ∀ es, d.log = c.log ++ es → applications id es = 0 →
      applications id d.log = 0 ∨ applications id d.log = 1 ∧
        ∃ r, findById d.shared.corrections id = some r ∧ r.status ≠ .Pending := by
    intro es hlog hes
    have hcount : applications id d.log = applications id c.log := by
      unfold applications at *
      rw [hlog, List.countP_append, hes, Nat.add_zero]
    rw [hcount]
    rcases h id with h0 | ⟨h1, r, hr, hs⟩
    · exact Or.inl h0
    · obtain ⟨r', hr', hset⟩ := settles_of_next hg hn hr
      exact Or.inr ⟨h1, r', hr', hset.status_ne hs⟩
  cases a with
  | env b =>
    obtain ⟨s, hs, rfl⟩ := System.next_env_eq_some.mp hn
    exact hkeep [] (by simp) rfl
  | call i x =>
    obtain ⟨w, l, es, he, rfl⟩ := System.next_call_eq_some.mp hn
    rcases exec_cases he with ⟨-, hes⟩ | ⟨tx, outcome, w', rfl, hc, hcommit, hend⟩
    · subst hes
      exact hkeep [] rfl rfl
    · obtain ⟨entities, ha, rfl⟩ := Tx.commit_eq_some hcommit
      cases hend
      rcases applications_events tx i id with h0 | ⟨h1, d, hd, rfl⟩
      · exact hkeep (tx.events i) rfl h0
      · -- the correction was pending, so this is the first time
        obtain ⟨r, hr, hp⟩ := pending_of_commit hc (Option.isSome_of_eq_some ha) hg hd
        have hfirst : applications d.correction.id c.log = 0 := by
          rcases h d.correction.id with h0 | ⟨-, s, hs, hne⟩
          · exact h0
          · rw [hr] at hs
            rw [← Option.some.inj hs] at hne
            exact absurd hp hne
        refine Or.inr ⟨?_, tx.update r, ?_, ?_⟩
        · unfold applications at *
          rw [List.countP_append, hfirst, h1]
        · exact findById_publish tx.update tx.update_id hr
        · have hne := Decision.update_status_ne (d := d) (findById_id hr)
          simpa [Tx.update, hd] using hne

/-- In every run whose decisions are committed on pending corrections, a correction is pending
until it is decided and then final, and the live data is overwritten from it at most once. -/
theorem status_machine (w : World D) (as bs : List (Act (Input D) Env)) (c d : Config D)
    (hg : system.Meets (fun c a => decidesPending c a) (initial w) (as ++ bs))
    (hc : system.run (initial w) as = some c) (hd : system.run c bs = some d) :
    (∀ id r, findById c.shared.corrections id = some r →
      ∃ r', findById d.shared.corrections id = some r' ∧ r.Settles r') ∧
    ∀ id, applications id d.log ≤ 1 := by
  have hmeets := (System.meets_append hc).mp hg
  refine ⟨fun id r hr => settles_of_run hmeets.2 hd hr, ?_⟩
  have hinv := System.run_induction (I := AppliedOnce)
    (fun x a y hx hga hn => hx.next hga hn) (fun id => Or.inl rfl) hg
    (System.run_append_eq_some.mpr ⟨c, hc, hd⟩)
  intro id
  rcases hinv id with h | ⟨h, -⟩ <;> omega

/-- A tag whose pending correction 1 was written by user 5. -/
def plainWorld : World String where
  clock := seconds 60
  entities := [⟨.Tag, 1, .columns "rock"⟩]
  histories := [⟨.Tag, 1, .columns "rock"⟩, ⟨.Tag, 2, .columns "Rock"⟩]
  corrections := [⟨1, .Pending, .Update, .Tag, 1, seconds 30, none⟩]
  correctionUsers := [⟨1, 5, .Author⟩]
  revisions := [⟨1, 2, 5, "capital letter"⟩]
  entitySeq _ := 2
  historySeq _ := 3
  correctionSeq := 2
  locks _ := none

/-- The author corrects the tag again while a moderator approves the first correction; another
moderator rejects the second. -/
def plainRun : List (Act (Input String) Env) :=
  [.call 0 (.upsert .Tag 1 ⟨.columns "ROCK", ⟨5, [.User]⟩, "louder", .Update⟩), .call 0 .ok,
    .call 0 .ok, .call 0 .ok, .call 1 (.handle .Approve 1 ⟨2, [.Moderator]⟩), .call 1 .ok,
    .call 1 .ok, .call 0 .ok, .call 0 .ok, .call 0 .ok, .call 0 .ok, .call 0 .ok, .call 1 .ok,
    .call 1 .ok, .call 1 .ok, .call 1 .ok, .call 1 .ok,
    .call 2 (.handle .Reject 2 ⟨3, [.Moderator]⟩), .call 2 .ok, .call 2 .ok, .call 2 .ok,
    .call 2 .ok, .call 2 .ok]

theorem plainRun_guarded :
    system.Meets (fun c a => decidesPending c a) (initial plainWorld) ([] ++ plainRun) := by
  decide

theorem plainRun_log : (system.run (initial plainWorld) plainRun).map (·.log) = some
    [.decided 1 1 .Approved (seconds 60), .applied 1 1 2, .decided 2 2 .Rejected (seconds 60)] := by
  decide

theorem status_machine_plain : ∃ d, system.run (initial plainWorld) plainRun = some d ∧
    .applied 1 1 2 ∈ d.log ∧ applications 1 d.log ≤ 1 ∧
    ∃ r', findById d.shared.corrections 1 = some r' ∧
      Correction.Settles ⟨1, .Pending, .Update, .Tag, 1, seconds 30, none⟩ r' := by
  obtain ⟨d, hd, hlog⟩ := Option.map_eq_some_iff.mp plainRun_log
  have h := status_machine plainWorld [] plainRun _ d plainRun_guarded rfl hd
  exact ⟨d, hd, by simp [hlog], h.2 1, h.1 1 _ rfl⟩

def World.empty : World String where
  clock := 0
  entities := []
  histories := []
  corrections := []
  correctionUsers := []
  revisions := []
  entitySeq _ := 1
  historySeq _ := 1
  correctionSeq := 1
  locks _ := none

/-- User 5 creates a tag, which stores correction 1 as approved. -/
def createTag : List (Act (Input String) Env) :=
  [.call 0 (.create .Tag ⟨.columns "rock", ⟨5, [.User]⟩, "new", .Create⟩), .call 0 .ok, .call 0 .ok,
    .call 0 .ok, .call 0 .ok, .call 0 .ok, .call 0 .ok, .call 0 .ok]

/-- A moderator rejects correction 1; two others approve it, one after the other. -/
def handleThrice : List (Act (Input String) Env) :=
  [.env (.tick (seconds 5)), .call 1 (.handle .Reject 1 ⟨2, [.Moderator]⟩), .call 1 .ok,
    .call 1 .ok, .call 1 .ok, .call 1 .ok, .call 1 .ok,
    .env (.tick (seconds 5)), .call 2 (.handle .Approve 1 ⟨3, [.Moderator]⟩), .call 2 .ok,
    .call 2 .ok, .call 2 .ok, .call 2 .ok, .call 2 .ok, .call 2 .ok, .call 2 .ok,
    .env (.tick (seconds 5)), .call 3 (.handle .Approve 1 ⟨4, [.Moderator]⟩), .call 3 .ok,
    .call 3 .ok, .call 3 .ok, .call 3 .ok, .call 3 .ok, .call 3 .ok, .call 3 .ok]

theorem createTag_row :
    findById (system.after (initial World.empty) createTag).shared.corrections 1 =
      some ⟨1, .Approved, .Create, .Tag, 1, 0, none⟩ := by
  decide

theorem handleThrice_row :
    findById (system.after (initial World.empty) (createTag ++ handleThrice)).shared.corrections 1 =
      some ⟨1, .Approved, .Create, .Tag, 1, 0, some (seconds 15)⟩ := by
  decide

theorem handleThrice_log :
    (system.after (initial World.empty) (createTag ++ handleThrice)).log =
      [.decided 1 1 .Rejected (seconds 5), .decided 2 1 .Approved (seconds 10), .applied 2 1 1,
        .decided 3 1 .Approved (seconds 15), .applied 3 1 1] := by
  decide

/-- An approved correction is rejected, approved and approved again: its `handled_at` is
overwritten, and the entity's live data is overwritten from it twice. -/
theorem decided_again :
    (¬ ∀ as bs c d, system.run (initial World.empty) as = some c → system.run c bs = some d →
      ∀ id r, findById c.shared.corrections id = some r →
        ∃ r', findById d.shared.corrections id = some r' ∧ r.Settles r') ∧
    ¬ ∀ as d, system.run (initial World.empty) as = some d → ∀ id, applications id d.log ≤ 1 := by
  have hruns : (system.run (initial World.empty) (createTag ++ handleThrice)).isSome := by decide
  have hcut := System.run_after_append hruns
  constructor
  · intro hall
    obtain ⟨r', hr', hset⟩ := hall _ _ _ _ hcut.1 hcut.2 1 _ createTag_row
    have heq := hset.eq_of_decided (by decide)
    rw [handleThrice_row, heq] at hr'
    exact absurd hr' (by decide)
  · intro hall
    have hle := hall _ _ (System.run_after hruns) 1
    rw [handleThrice_log] at hle
    exact absurd hle (by decide)

end Thcdb.Corrections
