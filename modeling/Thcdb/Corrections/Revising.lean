import Thcdb.Corrections.StatusMachine
import Thcdb.Interleaving.Trace

namespace Thcdb.Corrections
open Auth Interleaving

variable {D : Type}

/-- The user is an Author of the correction, or an Admin or a Moderator. -/
def mayRevise (w : World D) (user : User) (id : CorrectionId) : Bool :=
  user.hasRoles [.Admin, .Moderator] || w.correctionUsers.contains ⟨id, user.id, .Author⟩

/-- Whoever adds a revision to a correction that was there before this transaction may do so. -/
def revisedByPermitted (c : Config D) : Act (Input D) Env → Bool
  | .call i .ok =>
    match c.calls i with
    | .insertRevision tx new id =>
      tx.corrections.any (·.id = id) || mayRevise c.shared new.author id
    | _ => true
  | _ => true

/-- An upsert that finds the latest correction of its entity rejected is by somebody who may revise
that correction. -/
def resubmitsOwn (c : Config D) : Act (Input D) Env → Bool
  | .call i .ok =>
    match c.calls i with
    | .findPrevious _ new =>
      (findLatest c.shared.corrections new.entityId new.entityType).all fun previous =>
        previous.status ≠ .Rejected || mayRevise c.shared new.author previous.id
    | _ => true
  | _ => true

/-- A call that is about to write a revision writes it to its own correction, or may do so. -/
def Vouched (w : World D) : Call D → Prop
  | .insertAuthor tx _ id => tx.corrections.any (·.id = id)
  | .insertRevision tx new id => tx.corrections.any (·.id = id) ∨ mayRevise w new.author id
  | _ => True

variable {w w' : World D} {c : Call D}

theorem mayRevise_mono (h : w.correctionUsers ⊆ w'.correctionUsers) {user : User}
    {id : CorrectionId} (hm : mayRevise w user id) : mayRevise w' user id := by
  simp only [mayRevise, Bool.or_eq_true, List.contains_iff_mem] at hm ⊢
  exact hm.imp_right fun hmem => h hmem

theorem Vouched.mono (h : w.correctionUsers ⊆ w'.correctionUsers) (hv : Vouched w c) :
    Vouched w' c := by
  cases c with
  | insertRevision tx new id => exact hv.imp_right (mayRevise_mono h)
  | insertAuthor tx new id => exact hv
  | _ => trivial

/-- Nobody is ever struck off a correction. -/
theorem exec_correctionUsers {i : ℕ} {a : Input D} {r : World D × Call D × List Event}
    (h : system.exec i a w c = some r) : w.correctionUsers ⊆ r.1.correctionUsers := by
  rcases exec_cases h with ⟨hsame, -⟩ | ⟨tx, outcome, w', -, -, hcommit, rfl⟩
  · rw [World.correctionUsers_eq hsame]
    exact List.Subset.refl _
  · obtain ⟨entities, -, rfl⟩ := Tx.commit_eq_some hcommit
    exact List.subset_append_left _ _

/-- The statements that lead to a revision. -/
theorem Vouched.statement {i : ℕ} {r : World D × Call D × List Event} (hv : Vouched w c)
    (hown : ∀ tx new, c = .findPrevious tx new → ∀ previous,
      findLatest w.corrections new.entityId new.entityType = some previous →
      previous.status = .Rejected → mayRevise w new.author previous.id)
    (h : Corrections.statement i w c = some r) : Vouched r.1 r.2.1 := by
  cases c with
  | idle | done => cases h
  | findPrevious tx new =>
    simp only [Corrections.statement] at h
    split at h
    · obtain rfl := Option.some.inj h
      trivial
    · next previous hl =>
      split at h
      · split at h
        all_goals
          obtain rfl := Option.some.inj h
          trivial
      · obtain rfl := Option.some.inj h
        trivial
      · next hs =>
        -- a rejected correction is revised without asking whose it is
        obtain rfl := Option.some.inj h
        exact Or.inr (hown tx new rfl previous hl hs)
  | insertCorrection tx new =>
    simp only [Corrections.statement] at h
    split at h
    · obtain rfl := Option.some.inj h
      trivial
    · obtain rfl := Option.some.inj h
      simp [Vouched]
  | insertAuthor tx new id =>
    obtain rfl := Option.some.inj h
    exact Or.inl hv
  | insertApprover tx method correction approver =>
    obtain ⟨w', hw, rfl⟩ := Option.map_eq_some_iff.mp h
    split
    all_goals trivial
  | updateStatus tx method correction handledAt =>
    obtain ⟨w', hw, rfl⟩ := Option.map_eq_some_iff.mp h
    repeat' split
    all_goals trivial
  | createHistory tx new entityType entityId status =>
    obtain rfl := Option.some.inj h
    dsimp only
    split
    all_goals trivial
  | createEntity | readClock =>
    obtain rfl := Option.some.inj h
    trivial
  | _ =>
    simp only [Corrections.statement] at h
    repeat' split at h
    all_goals
      obtain rfl := Option.some.inj h
      trivial

def AllVouched (c : Config D) : Prop := ∀ i, Vouched c.shared (c.calls i)

theorem AllVouched.next {c d : Config D} {a : Act (Input D) Env} (h : AllVouched c)
    (hg : resubmitsOwn c a) (hn : system.next c a = some d) : AllVouched d := by
  cases a with
  | env b =>
    obtain ⟨s, hs, rfl⟩ := System.next_env_eq_some.mp hn
    obtain rfl := Option.some.inj hs
    exact fun i => (h i).mono (List.Subset.refl _)
  | call i x =>
    obtain ⟨w, l, es, he, rfl⟩ := System.next_call_eq_some.mp hn
    have hgrow : c.shared.correctionUsers ⊆ w.correctionUsers := exec_correctionUsers he
    have hl : Vouched w l := by
      rcases exec_start he with ⟨rfl, hs⟩ | ⟨rfl, hs⟩ | ⟨-, c', hc', heq⟩
      · refine (h i).statement (r := (w, l, es)) ?_ hs
        intro tx new hc previous hl hr
        simpa [resubmitsOwn, hc, hl, hr] using hg
      · unfold fails at hs
        split at hs
        · cases hs
        · cases hs
        · cases hs
        · cases hs
          trivial
      · cases heq
        cases x with
        | create | upsert | handle =>
          cases hc'
          trivial
        | ok | fail => cases hc'
    intro j
    by_cases hj : j = i
    · subst hj
      simpa using hl
    · simpa [Function.update_of_ne hj] using (h j).mono hgrow

theorem AllVouched.revisedByPermitted {c : Config D} (h : AllVouched c) (a : Act (Input D) Env) :
    revisedByPermitted c a := by
  unfold Corrections.revisedByPermitted
  split
  · next i =>
    have hv := h i
    split
    · next hc =>
      rw [hc] at hv
      simpa [Vouched] using hv
    · rfl
  · rfl

/-- In every run whose rejected corrections are resubmitted by their authors or staff only, nobody
else adds a revision to a correction. -/
theorem only_permitted_revise (w : World D) (as : List (Act (Input D) Env))
    (h : system.Meets (fun c a => resubmitsOwn c a) (initial w) as) :
    system.Meets (fun c a => revisedByPermitted c a) (initial w) as := by
  refine System.meets_of_invariant (I := AllVouched) ?_ ?_ ?_ h
  · exact fun c a d hc hg hn => hc.next hg hn
  · exact fun c a hc _ => hc.revisedByPermitted a
  · exact fun _ => trivial

/-- The correction of user 5 has been rejected. -/
def rejectedWorld : World String :=
  { plainWorld with
    corrections := [⟨1, .Rejected, .Update, .Tag, 1, seconds 30, some (seconds 50)⟩] }

def resubmit (user : UserId) : List (Act (Input String) Env) :=
  [.call 2 (.upsert .Tag 1 ⟨.columns "ROCK", ⟨user, [.User]⟩, "louder", .Update⟩), .call 2 .ok,
    .call 2 .ok, .call 2 .ok, .call 2 .ok, .call 2 .ok]

theorem only_permitted_revise_author :
    system.Meets (fun c a => revisedByPermitted c a) (initial rejectedWorld) (resubmit 5) ∧
      ((system.after (initial rejectedWorld) (resubmit 5)).shared.revisions.map
        CorrectionRevision.authorId) = [5, 5] :=
  ⟨only_permitted_revise rejectedWorld (resubmit 5) (by decide), by decide⟩

def rejectTag : List (Act (Input String) Env) :=
  [.call 1 (.handle .Reject 1 ⟨2, [.Moderator]⟩), .call 1 .ok, .call 1 .ok, .call 1 .ok,
    .call 1 .ok, .call 1 .ok]

/-- Once user 5's tag is rejected, user 7 writes the newest revision of user 5's correction. -/
theorem revised_by_stranger :
    ¬system.Meets (fun c a => revisedByPermitted c a) (initial World.empty)
        (createTag ++ rejectTag ++ resubmit 7) ∧
      (system.after (initial World.empty)
        (createTag ++ rejectTag ++ resubmit 7)).shared.revisions.map
          (fun v => (v.correctionId, v.authorId)) = [(1, 5), (1, 7)] := by
  decide

end Thcdb.Corrections
