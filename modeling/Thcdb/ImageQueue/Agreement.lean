import Thcdb.ImageQueue.Service

namespace Thcdb.ImageQueue
open Auth Interleaving

variable {i j : ℕ} {w w' : World} {id : QueueId} {imageId : ImageId}

/-- An entry is approved if and only if its image is published on its target for it. -/
structure Agrees (w : World) : Prop where
  rows : ∀ id r, w.queue id = some r → r.id = id ∧ r.valid
  published_of_approved : ∀ id r, w.queue id = some r → r.status = .Approved →
    ∃ target imageId, w.target id = .ok target ∧ r.imageId = some imageId ∧
      w.published ⟨target, imageId⟩ = some id
  approved_of_published : ∀ p id, w.published p = some id →
    ∃ r, w.queue id = some r ∧ r.status = .Approved ∧ w.target id = .ok p.target ∧
      r.imageId = some p.imageId

/-- The entry has had no other image than this one. -/
def KeepsImage (w : World) (id : QueueId) (imageId : ImageId) : Prop :=
  ∀ r, w.queue id = some r → r.imageId = some imageId ∨ r.imageId = none

/-- No late reject updates an approved entry, and no revert deletes an image while its own entry is
not approved. -/
def checksStatus (c : Config) : Act Input Env → Bool
  | .call i .ok =>
    match c.calls i with
    | .updateQueue .Reject _ model .. => (c.shared.queue model.id).all (·.status ≠ .Approved)
    | .deletePublished _ model image =>
      (c.shared.published image).isNone || (c.shared.queue model.id).any (·.status = .Approved)
    | _ => true
  | _ => true

def Prepared (w : World) (i : ℕ) (model : QueueRow) (tx : Tx) : HandleImageQueueMethod → Prop
  | .Approve => ∃ p, tx.published = some (p, some model.id) ∧ w.target model.id = .ok p.target ∧
      KeepsImage w model.id p.imageId ∧ w.locks (.published p) = some i ∧ w.published p = none
  | .Reject => tx.published = none
  | .Revert => ∃ p r, tx.published = some (p, none) ∧ w.target model.id = .ok p.target ∧
      w.locks (.published p) = some i ∧ w.published p = some model.id ∧
      w.queue model.id = some r ∧ r.status = .Approved ∧ r.imageId = some p.imageId

def Written (w : World) (i : ℕ) (tx : Tx) : Prop :=
  ∃ method model userId now r, Prepared w i model tx method ∧ w.queue model.id = some r ∧
    (method = .Reject → r.status ≠ .Approved) ∧ tx.queue = some (method.update r userId now) ∧
    (method.update r userId now).valid ∧ w.locks (.queue model.id) = some i

def CallInv (w : World) (i : ℕ) : Call → Prop
  | .idle | .done _ | .findQueue .. => True
  | .findArtistTarget _ _ model imageId => KeepsImage w model.id imageId
  | .findReleaseTarget _ _ model imageId artist =>
    KeepsImage w model.id imageId ∧ artist = w.artistImageQueue model.id
  | .insertPublished _ model p | .deletePublished _ model p =>
    KeepsImage w model.id p.imageId ∧ w.target model.id = .ok p.target
  | .readClock method _ model tx | .updateQueue method _ model _ tx => Prepared w i model tx method
  | .commit tx => Written w i tx

def Inv (c : Config) : Prop := Agrees c.shared ∧ ∀ i, CallInv c.shared i (c.calls i)

/-- A step that leaves the committed rows alone and takes locks from nobody. -/
structure OnlyLocks (i : ℕ) (w w' : World) : Prop where
  queue : w'.queue = w.queue
  published : w'.published = w.published
  artist : w'.artistImageQueue = w.artistImageQueue
  release : w'.releaseImageQueue = w.releaseImageQueue
  locks : ∀ j k, j ≠ i → w.locks k = some j → w'.locks k = some j

namespace OnlyLocks

theorem refl (i : ℕ) (w : World) : OnlyLocks i w w := ⟨rfl, rfl, rfl, rfl, fun _ _ _ h => h⟩

theorem tick (i : ℕ) (w : World) (d : ℕ) : OnlyLocks i w { w with clock := w.clock + d } :=
  ⟨rfl, rfl, rfl, rfl, fun _ _ _ h => h⟩

theorem released (i : ℕ) (w : World) : OnlyLocks i w (w.release i) := by
  refine ⟨rfl, rfl, rfl, rfl, ?_⟩
  intro j k hji hk
  have hne : w.locks k ≠ some i := by
    rw [hk]
    exact fun h => hji (Option.some.inj h)
  show (if w.locks k = some i then none else w.locks k) = some j
  rw [if_neg hne, hk]

theorem trans {w'' : World} (h : OnlyLocks i w w') (h' : OnlyLocks i w' w'') :
    OnlyLocks i w w'' :=
  ⟨h'.queue.trans h.queue, h'.published.trans h.published, h'.artist.trans h.artist,
    h'.release.trans h.release, fun j k hji hk => h'.locks j k hji (h.locks j k hji hk)⟩

theorem target (h : OnlyLocks i w w') (id : QueueId) : w'.target id = w.target id := by
  unfold World.target
  rw [h.artist, h.release]

theorem agrees (h : OnlyLocks i w w') (hw : Agrees w) : Agrees w' := by
  constructor
  · rw [h.queue]
    exact hw.rows
  · simp only [h.queue, h.published, h.target]
    exact hw.published_of_approved
  · simp only [h.queue, h.published, h.target]
    exact hw.approved_of_published

theorem keepsImage (h : OnlyLocks i w w') : KeepsImage w' id imageId ↔ KeepsImage w id imageId := by
  unfold KeepsImage
  rw [h.queue]

theorem prepared (h : OnlyLocks i w w') (hl : ∀ k, w.locks k = some j → w'.locks k = some j)
    {model : QueueRow} {tx : Tx} {method : HandleImageQueueMethod}
    (hp : Prepared w j model tx method) : Prepared w' j model tx method := by
  cases method with
  | Approve =>
    obtain ⟨p, htx, ht, hi, hlock, hn⟩ := hp
    exact ⟨p, htx, by rw [h.target, ht], h.keepsImage.mpr hi, hl _ hlock, by rw [h.published, hn]⟩
  | Reject => exact hp
  | Revert =>
    obtain ⟨p, r, htx, ht, hlock, hn, hr, hs, hi⟩ := hp
    exact ⟨p, r, htx, by rw [h.target, ht], hl _ hlock, by rw [h.published, hn],
      by rw [h.queue, hr], hs, hi⟩

/-- What the other calls rely on stays. -/
theorem callInv (h : OnlyLocks i w w') (hji : j ≠ i) {call : Call} (hc : CallInv w j call) :
    CallInv w' j call := by
  cases call with
  | idle | done | findQueue => trivial
  | findArtistTarget => exact h.keepsImage.mpr hc
  | findReleaseTarget => exact ⟨h.keepsImage.mpr hc.1, by rw [h.artist, hc.2]⟩
  | insertPublished | deletePublished => exact ⟨h.keepsImage.mpr hc.1, by rw [h.target, hc.2]⟩
  | readClock | updateQueue => exact h.prepared (fun k => h.locks j k hji) hc
  | commit tx =>
    obtain ⟨method, model, userId, now, r, hp, hr, hs, htx, hv, hl⟩ := hc
    have hp' := h.prepared (fun k => h.locks j k hji) hp
    have hr' : w'.queue model.id = some r := by rw [h.queue, hr]
    exact ⟨method, model, userId, now, r, hp', hr', hs, htx, hv, h.locks j _ hji hl⟩

end OnlyLocks

theorem onlyLocks_acquire {k : Lock} (h : w.acquire i k = some w') :
    OnlyLocks i w w' ∧ w'.locks k = some i ∧
      ∀ k', w.locks k' = some i → w'.locks k' = some i := by
  unfold World.acquire at h
  split at h
  · next hfree =>
    obtain rfl := Option.some.inj h
    refine ⟨⟨rfl, rfl, rfl, rfl, ?_⟩, Function.update_self .., ?_⟩
    · intro j k' hji hk'
      have hne : k' ≠ k := by
        rintro rfl
        rw [hk'] at hfree
        exact hji (by simpa using hfree)
      simpa only [Function.update_of_ne hne] using hk'
    · intro k' hk'
      by_cases hkk : k' = k
      · rw [hkk]
        exact Function.update_self ..
      · simpa only [Function.update_of_ne hkk] using hk'
  · cases h

section Commit

variable {tx : Tx} {model : QueueRow} {method : HandleImageQueueMethod} {userId : UserId} {now : ℕ}
  {r : QueueRow}

@[simp] theorem HandleImageQueueMethod.update_id : (method.update r userId now).id = r.id := by
  cases method <;> rfl

theorem HandleImageQueueMethod.update_imageId :
    (method.update r userId now).imageId = r.imageId ∨
      (method.update r userId now).imageId = none := by
  cases method with
  | Approve | Revert => exact Or.inl rfl
  | Reject => exact Or.inr rfl

/-- An approved row satisfies the check on its image only if it has one. -/
theorem QueueRow.exists_imageId (hv : r.valid) (hs : r.status = .Approved) :
    ∃ imageId, r.imageId = some imageId := by
  rw [← Option.isSome_iff_exists]
  simpa [valid, hs] using (Bool.and_eq_true_iff.mp hv).1

/-- The published row that a transaction writes is locked by it, so the commit changes no row that
another one has locked. -/
theorem Prepared.published_commit (h : Prepared w i model tx method) (hji : j ≠ i)
    {p : PublishedImage} (hl : w.locks (.published p) = some j) :
    (w.commit tx).published p = w.published p := by
  have hother : ∀ q, w.locks (.published q) = some i → p ≠ q := by
    rintro q hq rfl
    rw [hl] at hq
    exact hji (Option.some.inj hq)
  cases method with
  | Approve =>
    obtain ⟨q, htx, -, -, hq, -⟩ := h
    simp only [World.commit, htx, Option.elim_some, Function.update_of_ne (hother q hq)]
  | Reject =>
    have htx : tx.published = none := h
    simp only [World.commit, htx, Option.elim_none]
  | Revert =>
    obtain ⟨q, -, htx, -, hq, -⟩ := h
    simp only [World.commit, htx, Option.elim_some, Function.update_of_ne (hother q hq)]

/-- A transaction that is about to change an approved entry has locked its published image. -/
theorem Prepared.locks_of_approved (h : Prepared w i model tx method)
    (hr : w.queue model.id = some r) (hs : r.status = .Approved)
    (hm : method = .Reject → r.status ≠ .Approved) {p : PublishedImage}
    (ht : w.target model.id = .ok p.target) (hp : r.imageId = some p.imageId) :
    w.locks (.published p) = some i := by
  have heq : ∀ q : PublishedImage, w.target model.id = .ok q.target →
      r.imageId = some q.imageId → q = p := by
    intro q hq hi
    rw [hq, Except.ok.injEq] at ht
    rw [hi, Option.some.injEq] at hp
    cases q
    cases p
    simp_all
  cases method with
  | Approve =>
    obtain ⟨q, -, hq, hk, hl, -⟩ := h
    have hi : r.imageId = some q.imageId := by
      rcases hk r hr with hi | hi
      · exact hi
      · rw [hi] at hp
        cases hp
    rwa [heq q hq hi] at hl
  | Reject => exact absurd hs (hm rfl)
  | Revert =>
    obtain ⟨q, r', -, hq, hl, -, hr', -, hi⟩ := h
    obtain rfl : r' = r := Option.some.inj (hr'.symm.trans hr)
    rwa [heq q hq hi] at hl

theorem commit_queue (hw : Agrees w) (hr : w.queue model.id = some r)
    (htx : tx.queue = some (method.update r userId now)) :
    (w.commit tx).queue = Function.update w.queue model.id (some (method.update r userId now)) := by
  simp only [World.commit, htx, Option.elim_some, HandleImageQueueMethod.update_id,
    (hw.rows _ r hr).1]

@[simp] theorem commit_target : (w.commit tx).target id = w.target id := rfl

theorem Written.keepsImage (h : Written w i tx) (hw : Agrees w) (hk : KeepsImage w id imageId) :
    KeepsImage (w.commit tx) id imageId := by
  obtain ⟨method, model, userId, now, r, -, hr, -, htx, -, -⟩ := h
  intro r' hr'
  rw [commit_queue hw hr htx] at hr'
  by_cases hid : id = model.id
  · subst hid
    rw [Function.update_self, Option.some.injEq] at hr'
    subst hr'
    have himage : (method.update r userId now).imageId = r.imageId ∨
        (method.update r userId now).imageId = none := method.update_imageId
    rcases himage with hi | hi
    · rw [hi]
      exact hk r hr
    · exact Or.inr hi
  · rw [Function.update_of_ne hid] at hr'
    exact hk r' hr'

theorem Written.prepared (h : Written w i tx) (hw : Agrees w) (hji : j ≠ i) {tx' : Tx}
    {model' : QueueRow} {method' : HandleImageQueueMethod}
    (hp : Prepared w j model' tx' method') : Prepared (w.commit tx) j model' tx' method' := by
  have hkeeps : ∀ {id imageId}, KeepsImage w id imageId → KeepsImage (w.commit tx) id imageId :=
    fun hk => h.keepsImage hw hk
  obtain ⟨method, model, userId, now, r, hprep, hr, hs, htx, -, -⟩ := h
  cases method' with
  | Approve =>
    obtain ⟨p, htx', ht, hk, hl, hn⟩ := hp
    exact ⟨p, htx', ht, hkeeps hk, hl, by rw [hprep.published_commit hji hl, hn]⟩
  | Reject => exact hp
  | Revert =>
    obtain ⟨p, r', htx', ht, hl, hn, hr', hs', hi⟩ := hp
    have hid : model'.id ≠ model.id := by
      intro hid
      rw [hid] at hr' ht
      obtain rfl : r' = r := Option.some.inj (hr'.symm.trans hr)
      have hl' := hprep.locks_of_approved hr hs' hs ht hi
      rw [hl] at hl'
      exact hji (Option.some.inj hl')
    refine ⟨p, r', htx', ht, hl, by rw [hprep.published_commit hji hl, hn], ?_, hs', hi⟩
    rw [commit_queue hw hr htx, Function.update_of_ne hid, hr']

theorem Written.callInv (h : Written w i tx) (hw : Agrees w) (hji : j ≠ i) {call : Call}
    (hc : CallInv w j call) : CallInv (w.commit tx) j call := by
  cases call with
  | idle | done | findQueue => trivial
  | findArtistTarget => exact h.keepsImage hw hc
  | findReleaseTarget | insertPublished | deletePublished => exact ⟨h.keepsImage hw hc.1, hc.2⟩
  | readClock | updateQueue => exact h.prepared hw hji hc
  | commit tx' =>
    obtain ⟨method', model', userId', now', r', hp', hr', hs', htx', hv', hl'⟩ := hc
    refine ⟨method', model', userId', now', r', h.prepared hw hji hp', ?_, hs', htx', hv', hl'⟩
    obtain ⟨method, model, userId, now, r, -, hr, -, htx, -, hl⟩ := h
    have hid : model'.id ≠ model.id := by
      intro hid
      rw [hid, hl] at hl'
      exact hji (Option.some.inj hl').symm
    rw [commit_queue hw hr htx, Function.update_of_ne hid, hr']

/-- An entry is published under one key, that of its image. -/
theorem Agrees.key_eq (hw : Agrees w) {p q : PublishedImage} (hr : w.queue id = some r)
    (hq : w.published q = some id) (ht : w.target id = .ok p.target)
    (hi : r.imageId = some p.imageId) : q = p := by
  obtain ⟨r', hr', -, ht', hi'⟩ := hw.approved_of_published q id hq
  obtain rfl : r' = r := Option.some.inj (hr'.symm.trans hr)
  obtain ⟨target, imageId⟩ := q
  obtain rfl : p.target = target := Except.ok.inj (ht.symm.trans ht')
  obtain rfl : p.imageId = imageId := Option.some.inj (hi.symm.trans hi')
  rfl

/-- A commit keeps the two in step if it does so for the entry that it updates, and publishes and
withdraws nothing for another one. -/
theorem Agrees.commit (hw : Agrees w) {row : QueueRow} (htx : tx.queue = some row)
    (hv : row.valid)
    (hown : row.status = .Approved → ∃ p, w.target row.id = .ok p.target ∧
      row.imageId = some p.imageId ∧ (w.commit tx).published p = some row.id)
    (hpub : ∀ p, (w.commit tx).published p = some row.id → row.status = .Approved ∧
      w.target row.id = .ok p.target ∧ row.imageId = some p.imageId)
    (hother : ∀ p id, id ≠ row.id →
      ((w.commit tx).published p = some id ↔ w.published p = some id)) :
    Agrees (w.commit tx) := by
  have hq : (w.commit tx).queue = Function.update w.queue row.id (some row) := by
    simp only [World.commit, htx, Option.elim_some]
  constructor
  · intro id r hr
    rw [hq] at hr
    by_cases hid : id = row.id
    · subst hid
      rw [Function.update_self, Option.some.injEq] at hr
      subst hr
      exact ⟨rfl, hv⟩
    · rw [Function.update_of_ne hid] at hr
      exact hw.rows id r hr
  · intro id r hr hs
    rw [hq] at hr
    by_cases hid : id = row.id
    · subst hid
      rw [Function.update_self, Option.some.injEq] at hr
      subst hr
      obtain ⟨p, ht, hi, hp⟩ := hown hs
      exact ⟨p.target, p.imageId, ht, hi, hp⟩
    · rw [Function.update_of_ne hid] at hr
      obtain ⟨target, imageId, ht, hi, hp⟩ := hw.published_of_approved id r hr hs
      exact ⟨target, imageId, ht, hi, (hother _ id hid).mpr hp⟩
  · intro p id hp
    by_cases hid : id = row.id
    · subst hid
      exact ⟨row, by rw [hq, Function.update_self], hpub p hp⟩
    · obtain ⟨r, hr, hrest⟩ := hw.approved_of_published p id ((hother p id hid).mp hp)
      exact ⟨r, by rw [hq, Function.update_of_ne hid, hr], hrest⟩

/-- An approve has found its key free; the check on the image refuses an entry that was rejected
meanwhile. -/
theorem Agrees.commit_approve (hw : Agrees w) (hr : w.queue model.id = some r)
    (hp : Prepared w i model tx .Approve)
    (htx : tx.queue = some (HandleImageQueueMethod.Approve.update r userId now))
    (hv : (HandleImageQueueMethod.Approve.update r userId now).valid) : Agrees (w.commit tx) := by
  obtain ⟨p, hpub, ht, hk, -, hn⟩ := hp
  have hpub' : (w.commit tx).published = Function.update w.published p (some model.id) := by
    simp only [World.commit, hpub, Option.elim_some]
  have hid : (HandleImageQueueMethod.Approve.update r userId now).id = model.id := by
    rw [HandleImageQueueMethod.update_id, (hw.rows _ r hr).1]
  -- an update that cleared the image breaks the check of the table
  have hi : r.imageId = some p.imageId := by
    obtain ⟨imageId, hi⟩ := QueueRow.exists_imageId hv rfl
    rcases hk r hr with hi' | hi'
    · exact hi'
    · rw [show r.imageId = some imageId from hi] at hi'
      cases hi'
  apply hw.commit htx hv
  · intro _
    exact ⟨p, by rw [hid, ht], hi, by rw [hpub', Function.update_self, hid]⟩
  · intro q hq
    rw [hid] at hq ⊢
    have hqp : q = p := by
      by_contra hqp
      rw [hpub', Function.update_of_ne hqp] at hq
      exact hqp (hw.key_eq hr hq ht hi)
    subst hqp
    exact ⟨rfl, ht, hi⟩
  · intro q id hne
    rw [hid] at hne
    by_cases hqp : q = p
    · subst hqp
      rw [hpub', Function.update_self, hn]
      simp [hne.symm]
    · rw [hpub', Function.update_of_ne hqp]

/-- A reject of an entry that is not approved finds nothing published for it. -/
theorem Agrees.commit_reject (hw : Agrees w) (hr : w.queue model.id = some r)
    (hs : r.status ≠ .Approved) (hp : Prepared w i model tx .Reject)
    (htx : tx.queue = some (HandleImageQueueMethod.Reject.update r userId now))
    (hv : (HandleImageQueueMethod.Reject.update r userId now).valid) : Agrees (w.commit tx) := by
  have hpub : (w.commit tx).published = w.published := by
    have hp : tx.published = none := hp
    simp only [World.commit, hp, Option.elim_none]
  apply hw.commit htx hv
  · intro h
    cases h
  · intro p hp
    rw [hpub, HandleImageQueueMethod.update_id, (hw.rows _ r hr).1] at hp
    obtain ⟨r', hr', hs', -⟩ := hw.approved_of_published p _ hp
    obtain rfl : r' = r := Option.some.inj (hr'.symm.trans hr)
    exact absurd hs' hs
  · intro p id _
    rw [hpub]

/-- A revert has locked the very row that was published for its entry. -/
theorem Agrees.commit_revert (hw : Agrees w) (hr : w.queue model.id = some r)
    (hp : Prepared w i model tx .Revert)
    (htx : tx.queue = some (HandleImageQueueMethod.Revert.update r userId now))
    (hv : (HandleImageQueueMethod.Revert.update r userId now).valid) : Agrees (w.commit tx) := by
  obtain ⟨p, r₀, hpub, ht, -, hn, hr₀, -, hi⟩ := hp
  obtain rfl : r₀ = r := Option.some.inj (hr₀.symm.trans hr)
  have hpub' : (w.commit tx).published = Function.update w.published p none := by
    simp only [World.commit, hpub, Option.elim_some]
  have hid : (HandleImageQueueMethod.Revert.update r₀ userId now).id = model.id := by
    rw [HandleImageQueueMethod.update_id, (hw.rows _ r₀ hr).1]
  apply hw.commit htx hv
  · intro h
    cases h
  · intro q hq
    rw [hid, hpub'] at hq
    by_cases hqp : q = p
    · rw [hqp, Function.update_self] at hq
      cases hq
    · rw [Function.update_of_ne hqp] at hq
      exact absurd (hw.key_eq hr hq ht hi) hqp
  · intro q id hne
    rw [hid] at hne
    by_cases hqp : q = p
    · subst hqp
      rw [hpub', Function.update_self, hn]
      simp [hne.symm]
    · rw [hpub', Function.update_of_ne hqp]

theorem Written.agrees (h : Written w i tx) (hw : Agrees w) : Agrees (w.commit tx) := by
  obtain ⟨method, model, userId, now, r, hp, hr, hs, htx, hv, -⟩ := h
  cases method with
  | Approve => exact hw.commit_approve hr hp htx hv
  | Reject => exact hw.commit_reject hr (hs rfl) hp htx hv
  | Revert => exact hw.commit_revert hr hp htx hv

end Commit

theorem onlyLocks_rollback (e : Error) :
    OnlyLocks i w (rollback i w e).1 ∧ CallInv (rollback i w e).1 i (rollback i w e).2.1 :=
  ⟨.released i w, trivial⟩

/-- The read of an entry fixes the image that it may keep. -/
theorem keepsImage_of_read {model : QueueRow} (hw : Agrees w) (hr : w.queue id = some model)
    (hi : model.imageId = some imageId) : KeepsImage w model.id imageId := by
  intro r hr'
  rw [(hw.rows id model hr).1, hr, Option.some.injEq] at hr'
  subst hr'
  exact Or.inl hi

/-- A statement touches locks only, unless it is the commit. -/
theorem statement_cases {call : Call} {x : World × Call × List Event}
    (h : statement i w call = some x) (hw : Agrees w) (hc : CallInv w i call)
    (hg : checksStatus ⟨w, fun _ => call, []⟩ (.call i .ok)) :
    (OnlyLocks i w x.1 ∧ CallInv x.1 i x.2.1) ∨
      ∃ tx, call = .commit tx ∧ x = ((w.commit tx).release i, .done .handled, [.handled i]) := by
  cases call with
  | idle | done => cases h
  | findQueue method userId id =>
    refine Or.inl ?_
    simp only [statement] at h
    split at h
    · obtain rfl := Option.some.inj h
      exact onlyLocks_rollback _
    · next model hr =>
      split at h
      · obtain rfl := Option.some.inj h
        exact onlyLocks_rollback _
      · split at h
        · next hm =>
          obtain rfl := Option.some.inj h
          subst hm
          exact ⟨.refl i w, rfl⟩
        · split at h
          · obtain rfl := Option.some.inj h
            exact onlyLocks_rollback _
          · next imageId hi =>
            obtain rfl := Option.some.inj h
            exact ⟨.refl i w, keepsImage_of_read hw hr hi⟩
  | findArtistTarget method userId model imageId =>
    obtain rfl := Option.some.inj h
    exact Or.inl ⟨.refl i w, hc, rfl⟩
  | findReleaseTarget method userId model imageId artist =>
    obtain ⟨hk, rfl⟩ := hc
    refine Or.inl ?_
    simp only [statement] at h
    split at h
    · obtain rfl := Option.some.inj h
      exact onlyLocks_rollback _
    · next target ht =>
      split at h
      · obtain rfl := Option.some.inj h
        exact ⟨.refl i w, hk, ht⟩
      · obtain rfl := Option.some.inj h
        exact ⟨.refl i w, hk, ht⟩
  | insertPublished userId model p =>
    obtain ⟨hk, ht⟩ := hc
    refine Or.inl ?_
    obtain ⟨w', hw', rfl⟩ := Option.map_eq_some_iff.mp h
    obtain ⟨honly, hl, hown⟩ := onlyLocks_acquire hw'
    split
    · exact ⟨honly.trans (.released i w'), trivial⟩
    · next hn =>
      rw [Bool.not_eq_true, Option.isSome_eq_false_iff, Option.isNone_iff_eq_none] at hn
      exact ⟨honly, p, rfl, by rw [honly.target, ht], honly.keepsImage.mpr hk, hl, hn⟩
  | deletePublished userId model p =>
    obtain ⟨hk, ht⟩ := hc
    refine Or.inl ?_
    simp only [statement] at h
    split at h
    · obtain rfl := Option.some.inj h
      exact onlyLocks_rollback _
    · next hsome =>
      obtain ⟨w', hw', rfl⟩ := Option.map_eq_some_iff.mp h
      obtain ⟨honly, hl, hown⟩ := onlyLocks_acquire hw'
      -- its own entry is approved, so the published row is that entry's
      have hany : (w.queue model.id).any (·.status = .Approved) := by
        simpa [checksStatus, hsome] using hg
      obtain ⟨r, hr, hs⟩ := (Option.any_eq_true _ _).mp hany
      have hs : r.status = .Approved := of_decide_eq_true hs
      obtain ⟨target, imageId, ht', hi, hp⟩ := hw.published_of_approved _ r hr hs
      have heq : (⟨target, imageId⟩ : PublishedImage) = p := by
        rw [ht, Except.ok.injEq] at ht'
        have hi' : imageId = p.imageId := by
          rcases hk r hr with hi' | hi'
          · rw [hi, Option.some.injEq] at hi'
            exact hi'
          · rw [hi] at hi'
            cases hi'
        rw [← ht', hi']
      subst heq
      exact ⟨honly, _, r, rfl, by rw [honly.target, ht], hl, by rw [honly.published, hp],
        by rw [honly.queue, hr], hs, hi⟩
  | readClock method userId model tx =>
    obtain rfl := Option.some.inj h
    exact Or.inl ⟨.refl i w, hc⟩
  | updateQueue method userId model now tx =>
    refine Or.inl ?_
    obtain ⟨w', hw', rfl⟩ := Option.map_eq_some_iff.mp h
    obtain ⟨honly, hl, hown⟩ := onlyLocks_acquire hw'
    split
    · exact ⟨honly.trans (.released i w'), trivial⟩
    · next r hr =>
      dsimp only
      split
      · next hv =>
        have hs : method = .Reject → r.status ≠ .Approved := by
          rintro rfl
          rw [honly.queue] at hr
          simpa [checksStatus, hr] using hg
        have hprep : Prepared w' i model tx method := honly.prepared hown hc
        exact ⟨honly, method, model, userId, now, r, hprep, hr, hs, rfl, hv, hl⟩
      · exact ⟨honly.trans (.released i w'), trivial⟩
  | commit tx =>
    obtain rfl := Option.some.inj h
    exact Or.inr ⟨tx, rfl, rfl⟩

def Moves (c d : Config) : Prop :=
  (∃ i, OnlyLocks i c.shared d.shared) ∨
    ∃ i tx, Written c.shared i tx ∧ d.shared = (c.shared.commit tx).release i

theorem exec_cases {c : Config} {x : Input} {y : World × Call × List Event}
    (he : system.exec i x c.shared (c.calls i) = some y) (h : Inv c)
    (hg : checksStatus c (.call i x)) :
    (OnlyLocks i c.shared y.1 ∧ CallInv y.1 i y.2.1) ∨
      ∃ tx, c.calls i = .commit tx ∧
        y = ((c.shared.commit tx).release i, .done .handled, [.handled i]) := by
  cases x with
  | ok => exact statement_cases he h.1 (h.2 i) hg
  | fail =>
    have hf : fails i c.shared (c.calls i) = some y := he
    refine Or.inl ?_
    cases hc : c.calls i with
    | idle | readClock | done => simp [hc, fails] at hf
    | _ =>
      rw [hc] at hf
      obtain rfl := Option.some.inj hf
      exact onlyLocks_rollback _
  | handle method userId id =>
    refine Or.inl ?_
    cases hc : c.calls i with
    | idle =>
      simp only [system, hc] at he
      obtain rfl := Option.some.inj he
      exact ⟨.refl i _, trivial⟩
    | _ => simp [system, hc] at he

theorem Inv.next {c d : Config} {a : Act Input Env} (h : Inv c) (hg : checksStatus c a)
    (hn : system.next c a = some d) : Inv d ∧ Moves c d := by
  obtain ⟨hw, hcalls⟩ := h
  cases a with
  | env b =>
    obtain ⟨s, hs, rfl⟩ := System.next_env_eq_some.mp hn
    cases b with
    | tick t =>
      obtain rfl := Option.some.inj hs
      refine ⟨⟨(OnlyLocks.tick 0 c.shared t).agrees hw, ?_⟩, Or.inl ⟨0, .tick 0 _ t⟩⟩
      intro j
      -- the clock belongs to no call
      have hj : j ≠ j + 1 := Nat.ne_of_lt j.lt_succ_self
      exact (OnlyLocks.tick (j + 1) c.shared t).callInv hj (hcalls j)
  | call i x =>
    obtain ⟨s, l, es, he, rfl⟩ := System.next_call_eq_some.mp hn
    rcases exec_cases he ⟨hw, hcalls⟩ hg with ⟨honly, hl⟩ | ⟨tx, hc, hy⟩
    · refine ⟨⟨honly.agrees hw, ?_⟩, Or.inl ⟨i, honly⟩⟩
      intro j
      by_cases hji : j = i
      · subst hji
        simpa only [Function.update_self] using hl
      · simpa only [Function.update_of_ne hji] using honly.callInv hji (hcalls j)
    · obtain ⟨rfl, hrest⟩ := Prod.mk.inj hy
      obtain ⟨rfl, rfl⟩ := Prod.mk.inj hrest
      have hwritten : Written c.shared i tx := by
        have hi := hcalls i
        rwa [hc] at hi
      have honly := OnlyLocks.released i (c.shared.commit tx)
      refine ⟨⟨honly.agrees (hwritten.agrees hw), ?_⟩, Or.inr ⟨i, tx, hwritten, rfl⟩⟩
      intro j
      by_cases hji : j = i
      · subst hji
        simp only [Function.update_self]
        trivial
      · simpa only [Function.update_of_ne hji] using
          honly.callInv hji (hwritten.callInv hw hji (hcalls j))

def Follows (w : World) (id : QueueId) (imageId : ImageId) (target : QueueTarget) : Prop :=
  (w.queue id).isSome ∧ KeepsImage w id imageId ∧ w.target id = .ok target

theorem Follows.next {c d : Config} {target : QueueTarget} (h : Follows c.shared id imageId target)
    (hw : Agrees c.shared) (hm : Moves c d) : Follows d.shared id imageId target := by
  obtain ⟨hrow, hk, ht⟩ := h
  rcases hm with ⟨i, honly⟩ | ⟨i, tx, hwritten, hd⟩
  · exact ⟨by rw [honly.queue, hrow], honly.keepsImage.mpr hk, by rw [honly.target, ht]⟩
  · have hk' := hwritten.keepsImage hw hk
    obtain ⟨method, model, userId, now, r, -, hr, -, htx, -, -⟩ := hwritten
    have honly := OnlyLocks.released i (c.shared.commit tx)
    rw [hd]
    refine ⟨?_, honly.keepsImage.mpr hk', by rw [honly.target, commit_target, ht]⟩
    rw [honly.queue, commit_queue hw hr htx]
    by_cases hid : id = model.id
    · rw [hid, Function.update_self]
      rfl
    · rw [Function.update_of_ne hid, hrow]

theorem initial_inv (hw : Agrees w) : Inv (initial w) := ⟨hw, fun _ => trivial⟩

/-- In every run without a late reject of an approved entry and without a late revert of an image
that is another entry's, an entry that once had an image, as a pending one does, is approved if and
only if this image is published on its target for it. -/
theorem queue_agrees (w : World) (hw : Agrees w) (as bs : List (Act Input Env)) (c d : Config)
    (hg : system.Meets (fun c a => checksStatus c a) (initial w) (as ++ bs))
    (hc : system.run (initial w) as = some c) (hd : system.run c bs = some d)
    (id : QueueId) (r : QueueRow) (imageId : ImageId) (target : QueueTarget)
    (hr : c.shared.queue id = some r) (hi : r.imageId = some imageId)
    (ht : c.shared.target id = .ok target) :
    ∃ r', d.shared.queue id = some r' ∧
      (r'.status = .Approved ↔ d.shared.published ⟨target, imageId⟩ = some id) := by
  have hmeets := (System.meets_append hc).mp hg
  -- the invariant up to the first of the two moments
  have hinv : Inv c := System.run_induction (I := Inv) (fun x a y hx hga hn => (hx.next hga hn).1)
    (initial_inv hw) hmeets.1 hc
  have hfollows : Follows c.shared id imageId target := by
    refine ⟨by rw [hr]; rfl, ?_, ht⟩
    intro r' hr'
    rw [hr, Option.some.injEq] at hr'
    exact Or.inl (hr' ▸ hi)
  -- from there on the entry is followed with its image and its target
  obtain ⟨hagrees, hrow, hk, ht'⟩ : Agrees d.shared ∧ Follows d.shared id imageId target := by
    have h := System.run_induction (I := fun x => Inv x ∧ Follows x.shared id imageId target)
      (fun x a y hx hga hn =>
        have hy := hx.1.next hga hn
        ⟨hy.1, hx.2.next hx.1.1 hy.2⟩)
      ⟨hinv, hfollows⟩ hmeets.2 hd
    exact ⟨h.1.1, h.2⟩
  obtain ⟨r', hr'⟩ := Option.isSome_iff_exists.mp hrow
  refine ⟨r', hr', ?_, ?_⟩
  · intro hs'
    obtain ⟨target', imageId', ht'', hi', hp⟩ := hagrees.published_of_approved id r' hr' hs'
    rw [ht', Except.ok.injEq] at ht''
    rcases hk r' hr' with hi'' | hi''
    · rw [hi', Option.some.injEq] at hi''
      rwa [ht'', ← hi'']
    · rw [hi'] at hi''
      cases hi''
  · intro hp
    obtain ⟨r'', hr'', hs', -⟩ := hagrees.approved_of_published _ id hp
    rw [hr', Option.some.injEq] at hr''
    rw [hr'', hs']

/-- Entry 1 is pending: image 7 for the profile of artist 3. -/
def plainWorld : World where
  clock := seconds 60
  queue := Function.update (fun _ => none) 1 (some ⟨1, some 7, .Pending, none, none, none, none⟩)
  artistImageQueue := Function.update (fun _ => none) 1 (some (.Artist 3 .Profile))
  releaseImageQueue _ := none
  published _ := none
  locks _ := none

theorem plainWorld_agrees : Agrees plainWorld := by
  have hrow : ∀ id r, plainWorld.queue id = some r →
      id = 1 ∧ r = ⟨1, some 7, .Pending, none, none, none, none⟩ := by
    intro id r hr
    by_cases hid : id = 1
    · subst hid
      exact ⟨rfl, (Option.some.inj hr).symm⟩
    · simp [plainWorld, Function.update_of_ne hid] at hr
  constructor
  · intro id r hr
    obtain ⟨rfl, rfl⟩ := hrow id r hr
    exact ⟨rfl, rfl⟩
  · intro id r hr hs
    obtain ⟨rfl, rfl⟩ := hrow id r hr
    cases hs
  · intro p id hp
    cases hp

/-- Moderator 2 approves the entry, and moderator 4 reverts it. -/
def plainRun : List (Act Input Env) :=
  [.call 0 (.handle .Approve 2 1), .call 0 .ok, .call 0 .ok, .call 0 .ok, .call 0 .ok, .call 0 .ok,
    .call 0 .ok, .call 0 .ok, .call 1 (.handle .Revert 4 1), .call 1 .ok, .call 1 .ok, .call 1 .ok,
    .call 1 .ok, .call 1 .ok, .call 1 .ok, .call 1 .ok]

theorem plainRun_guarded :
    system.Meets (fun c a => checksStatus c a) (initial plainWorld) ([] ++ plainRun) := by
  decide

theorem plainRun_log :
    (system.run (initial plainWorld) plainRun).map (·.log) = some [.handled 0, .handled 1] := by
  decide

theorem queue_agrees_plain : ∃ d, system.run (initial plainWorld) plainRun = some d ∧
    d.log = [.handled 0, .handled 1] ∧ ∃ r', d.shared.queue 1 = some r' ∧
      (r'.status = .Approved ↔ d.shared.published ⟨.Artist 3 .Profile, 7⟩ = some 1) := by
  obtain ⟨d, hd, hlog⟩ := Option.map_eq_some_iff.mp plainRun_log
  exact ⟨d, hd, hlog, queue_agrees plainWorld plainWorld_agrees [] plainRun _ d plainRun_guarded rfl
    hd 1 _ 7 (.Artist 3 .Profile) rfl rfl rfl⟩

/-- Moderator 4 reads the entry as pending; moderator 2 approves it; then the reject goes on. -/
def lateReject : List (Act Input Env) :=
  [.call 1 (.handle .Reject 4 1), .call 1 .ok, .call 0 (.handle .Approve 2 1), .call 0 .ok,
    .call 0 .ok, .call 0 .ok, .call 0 .ok, .call 0 .ok, .call 0 .ok, .call 0 .ok, .call 1 .ok,
    .call 1 .ok, .call 1 .ok]

/-- Both have ended, the entry is rejected, and its image is published for it. -/
theorem rejected_and_published : Agrees plainWorld ∧
    (plainWorld.queue 1).map (·.status) = some .Pending ∧
    (system.run (initial plainWorld) lateReject).map (fun d =>
      (d.calls 0, d.calls 1, (d.shared.queue 1).map (·.status),
        d.shared.published ⟨.Artist 3 .Profile, 7⟩)) =
      some (.done .handled, .done .handled, some .Rejected, some 1) :=
  ⟨plainWorld_agrees, rfl, by decide⟩

end Thcdb.ImageQueue
