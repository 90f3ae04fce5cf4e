import Thcdb.Notifications.Hub

namespace Thcdb.Notifications
open Auth Interleaving Broadcast

namespace Call

def guard : Call → Option (UserId × ChannelId)
  | .attaching u ch | .connected u ch _ | .ended u ch => some (u, ch)
  | .idle | .released .. | .sending .. | .sweeping .. | .removing .. | .done => none

/-- The channel that a call has an end of, and whose it is. -/
def channel : Call → Option (UserId × ChannelId)
  | .attaching u ch | .connected u ch _ | .ended u ch | .released u ch _ | .sending u ch _ =>
    some (u, ch)
  | .idle | .sweeping .. | .removing .. | .done => none

def position : Call → Option (ChannelId × ℕ)
  | .connected _ ch pos | .released _ ch pos => some (ch, pos)
  | .idle | .attaching .. | .ended .. | .sending .. | .sweeping .. | .removing .. | .done => none

end Call

def guards (calls : ℕ → Call) (u : UserId) : Set ℕ := {i | (calls i).guard.map (·.1) = some u}

section Guards

variable {calls : ℕ → Call} {i : ℕ} {c : Call} {u : UserId} {ch : ChannelId}

theorem guards_same (h : c.guard = (calls i).guard) (v : UserId) :
    guards (Function.update calls i c) v = guards calls v := by
  ext j
  by_cases hj : j = i
  · subst hj
    simp [guards, h]
  · simp [guards, Function.update_of_ne hj]

theorem guards_opened (hc : c.guard = some (u, ch)) :
    guards (Function.update calls i c) u = insert i (guards calls u) := by
  ext j
  by_cases hj : j = i
  · subst hj
    simp [guards, hc]
  · simp [guards, hj]

theorem guards_dropped (hc : c.guard = none) :
    guards (Function.update calls i c) u = guards calls u \ {i} := by
  ext j
  by_cases hj : j = i
  · subst hj
    simp [guards, hc]
  · simp [guards, hj]

theorem guards_other {v : UserId} (hi : (calls i).guard = none ∨ (calls i).guard = some (u, ch))
    (hc : c.guard = none ∨ c.guard = some (u, ch)) (hv : v ≠ u) :
    guards (Function.update calls i c) v = guards calls v := by
  ext j
  by_cases hj : j = i
  · subst hj
    rcases hi with hi | hi <;> rcases hc with hc | hc <;> simp [guards, hi, hc, hv.symm]
  · simp [guards, Function.update_of_ne hj]

end Guards

/-- What a statement does to the map of channels and to the call that runs it. -/
inductive Effect (X : Platform) (w : Hub) : Call → Hub → Call → Prop
  /-- the map stays as it is; the call goes on with what it has or takes a sender from the map -/
  | quiet {c c' : Call} {w' : Hub} (hchannels : w'.channels = w.channels) (hkeys : w'.keys = w.keys)
      (hcreated : w'.created = w.created)
      (hsent : ∀ ch, w.sent ch <+: w'.sent ch) (hguard : c'.guard = c.guard)
      (hchannel : ∀ u ch, c'.channel = some (u, ch) →
        c.channel = some (u, ch) ∨ (w.channels u).map (·.sender) = some ch)
      (hpos : ∀ ch pos, c'.position = some (ch, pos) → pos ≤ (w'.sent ch).length) : Effect X w c w' c'
  | opens (u : UserId) : Effect X w .idle (subscribe X w u).1 (.attaching u (subscribe X w u).2)
  | drops {c c' : Call} (u : UserId) (ch : ChannelId) (hc : c.guard = some (u, ch))
      (hc' : c'.guard = none) (hchannel : c'.channel = none ∨ c'.channel = some (u, ch))
      (hpos : ∀ p, c'.position = some p → c.position = some p) : Effect X w c (unsubscribe w u) c'
  | removes (now s : ℕ) (u : UserId) (rest : List UserId) :
      Effect X w (.removing now s (u :: rest)) (removeIf w now u) (.removing now s rest)

variable {X : Platform} {w : Hub} {calls : ℕ → Call} {i : ℕ}

theorem readNext_effect {u : UserId} {ch : ChannelId} {pos : ℕ} {c : Call} {stay : ℕ → Call}
    {gone : Call} {r : Hub × Call × List Event} (h : readNext i w u ch pos stay gone = some r)
    (hc : c.channel = some (u, ch)) (hstay : ∀ n, (stay n).guard = c.guard)
    (hstay' : ∀ n, (stay n).channel = some (u, ch)) (hpos : ∀ n, (stay n).position = some (ch, n))
    (hgone : gone.guard = c.guard) (hgone' : ∀ p, gone.channel = some p → c.channel = some p)
    (hnone : gone.position = none) : Effect X w c r.1 r.2.1 := by
  have stays {n : ℕ} (hn : n ≤ (w.sent ch).length) : Effect X w c w (stay n) := by
    refine .quiet rfl rfl rfl (fun _ => List.prefix_rfl) (hstay n) ?_ ?_
    · intro v k hk
      exact Or.inl (hc.trans ((hstay' n).symm.trans hk))
    · intro k m hk
      obtain ⟨rfl, rfl⟩ := Prod.mk.inj (Option.some.inj ((hpos n).symm.trans hk))
      exact hn
  unfold readNext at h
  split at h
  · rename_i msg n hr
    obtain rfl := Option.some.inj h
    exact stays (recv_eq_message hr).2.1
  · rename_i n hr
    obtain rfl := Option.some.inj h
    exact stays (recv_eq_lagged hr).2.1
  · split at h
    · cases h
    · obtain rfl := Option.some.inj h
      refine .quiet rfl rfl rfl (fun _ => List.prefix_rfl) hgone ?_ ?_
      · exact fun v k hk => Or.inl (hgone' _ hk)
      · simp [hnone]

theorem exec_effect {a : Input} {c : Call} {r : Hub × Call × List Event}
    (h : exec X i a w c = some r) : Effect X w c r.1 r.2.1 := by
  unfold exec at h
  split at h
  · -- a socket opens
    split at h
    · obtain rfl := Option.some.inj h
      exact .opens _
    · cases h
  · obtain rfl := Option.some.inj h
    refine .quiet rfl rfl rfl (fun _ => List.prefix_rfl) rfl (fun _ _ hk => Or.inl hk) ?_
    intro ch pos hk
    obtain ⟨rfl, rfl⟩ := Prod.mk.inj (Option.some.inj hk)
    rfl
  · exact readNext_effect h rfl (fun _ => rfl) (fun _ => rfl) (fun _ => rfl) rfl (fun _ hk => hk) rfl
  · obtain rfl := Option.some.inj h
    exact .quiet rfl rfl rfl (fun _ => List.prefix_rfl) rfl (fun _ _ hk => Or.inl hk)
      (by simp [Call.position])
  · -- a guard is dropped before its receiver
    split at h
    · obtain rfl := Option.some.inj h
      exact .drops _ _ rfl rfl (Or.inr rfl) fun _ hp => hp
    · cases h
  · split at h
    · obtain rfl := Option.some.inj h
      exact .drops _ _ rfl rfl (Or.inl rfl) (by simp [Call.position])
    · cases h
  · exact readNext_effect h rfl (fun _ => rfl) (fun _ => rfl) (fun _ => rfl) rfl
      (by simp [Call.channel]) rfl
  · obtain rfl := Option.some.inj h
    exact .quiet rfl rfl rfl (fun _ => List.prefix_rfl) rfl (by simp [Call.channel])
      (by simp [Call.position])
  · split at h
    · obtain rfl := Option.some.inj h
      exact .quiet rfl rfl rfl (fun _ => List.prefix_rfl) rfl (by simp [Call.channel])
        (by simp [Call.position])
    · rename_i u msg e he
      obtain rfl := Option.some.inj h
      refine .quiet rfl rfl rfl (fun _ => List.prefix_rfl) rfl ?_ (by simp [Call.position])
      intro v k hk
      obtain ⟨rfl, rfl⟩ := Prod.mk.inj (Option.some.inj hk)
      exact Or.inr (by simp [he])
  · -- a message is sent
    rename_i u ch msg
    obtain rfl := Option.some.inj h
    refine .quiet rfl rfl rfl ?_ rfl (by simp [Call.channel]) (by simp [Call.position])
    intro k
    by_cases hk : k = ch
    · subst hk
      simp
    · simp [Function.update_of_ne hk]
  · obtain rfl := Option.some.inj h
    exact .quiet rfl rfl rfl (fun _ => List.prefix_rfl) rfl (by simp [Call.channel])
      (by simp [Call.position])
  · split at h
    all_goals obtain rfl := Option.some.inj h
    · exact .quiet (by split <;> rfl) (by split <;> rfl) (by split <;> rfl)
        (fun _ => by split <;> exact List.prefix_rfl) rfl (by simp [Call.channel])
        (by simp [Call.position])
    · exact .quiet rfl rfl rfl (fun _ => List.prefix_rfl) rfl (by simp [Call.channel])
        (by simp [Call.position])
  · obtain rfl := Option.some.inj h
    exact .quiet (by split <;> rfl) (by split <;> rfl) (by split <;> rfl)
      (fun _ => by split <;> exact List.prefix_rfl) rfl (by simp [Call.channel])
      (by simp [Call.position])
  · -- a channel is removed
    split at h
    · obtain rfl := Option.some.inj h
      exact .removes _ _ _ _
    · cases h
  · cases h

def Hub.senderOf (w : Hub) (u : UserId) : Option ChannelId := (w.channels u).map (·.sender)

theorem subscribe_senderOf (u v : UserId) : (subscribe X w u).1.senderOf v =
    if v = u then some (subscribe X w u).2 else w.senderOf v := by
  unfold subscribe Hub.senderOf
  split <;> by_cases hv : v = u <;> simp_all

theorem unsubscribe_senderOf (u v : UserId) : (unsubscribe w u).senderOf v = w.senderOf v := by
  unfold unsubscribe Hub.senderOf
  split
  · rfl
  · by_cases hv : v = u <;> simp_all

theorem removeIf_senderOf (now : ℕ) (u v : UserId) : (removeIf w now u).senderOf v =
    if v = u ∧ (w.channels u).any (·.expired now) then none else w.senderOf v := by
  unfold removeIf Hub.senderOf
  by_cases he : (w.channels u).any (·.expired now) = true
  · rw [if_pos he]
    by_cases hv : v = u <;> simp [hv, he]
  · simp [he]

/-- An iterator meets every user with an entry, once. -/
def Hub.Listed (w : Hub) : Prop := w.keys.Nodup ∧ ∀ u, u ∈ w.keys ↔ (w.channels u).isSome

structure Inv (w : Hub) (calls : ℕ → Call) : Prop where
  /-- a channel is one user's, in the map and in every call -/
  owners : ∃ owner : ChannelId → UserId,
    (∀ u ch, w.senderOf u = some ch → owner ch = u ∧ ch < w.created) ∧
    ∀ i u ch, (calls i).channel = some (u, ch) → owner ch = u ∧ ch < w.created
  /-- a socket with a guard listens where the map points -/
  routed : ∀ i u ch, (calls i).guard = some (u, ch) → w.senderOf u = some ch
  /-- the counter counts the guards, and the time is kept of when it got to zero -/
  counted : ∀ u, (guards calls u).Finite ∧ ∀ e, w.channels u = some e →
    e.subscriberCount = (guards calls u).ncard ∧ (e.lastEmptyAt.isSome ↔ e.subscriberCount = 0)
  keys : w.Listed
  /-- no receiver is ahead of its channel -/
  behind : ∀ i ch pos, (calls i).position = some (ch, pos) → pos ≤ (w.sent ch).length

theorem guards_eq_empty (h : ∀ i ch, (calls i).guard ≠ some (u, ch)) : guards calls u = ∅ := by
  ext i
  simp only [guards, Set.mem_ofPred_eq, Option.map_eq_some_iff, Prod.exists, Set.mem_empty_iff_false,
    iff_false, not_exists, not_and]
  rintro v ch hi rfl
  exact h i ch hi

/-- Nobody holds a guard for a user without an entry, or with one that has expired. -/
theorem Inv.guard_ne (h : Inv w calls) {u : UserId}
    (hu : ∀ e, w.channels u = some e → ∃ now, e.expired now = true) (i : ℕ) (ch : ChannelId) :
    (calls i).guard ≠ some (u, ch) := by
  intro hi
  obtain ⟨e, he, -⟩ := Option.map_eq_some_iff.mp (h.routed i u ch hi)
  obtain ⟨now, hexp⟩ := hu e he
  obtain ⟨hfin, hcount⟩ := h.counted u
  have hzero : e.subscriberCount = 0 := by
    simp only [ChannelEntry.expired, Bool.and_eq_true, decide_eq_true_eq] at hexp
    exact hexp.1
  have hempty := (Set.ncard_eq_zero hfin).mp ((hcount e he).1.symm.trans hzero)
  have hmem : i ∈ guards calls u := by simp [guards, hi]
  rw [hempty] at hmem
  exact hmem

section Step

variable {c c' : Call} {w' : Hub}

theorem Effect.owners (he : Effect X w c w' c') (hi : calls i = c) (h : Inv w calls) :
    ∃ owner : ChannelId → UserId,
      (∀ u ch, w'.senderOf u = some ch → owner ch = u ∧ ch < w'.created) ∧
      ∀ j u ch, (Function.update calls i c' j).channel = some (u, ch) →
        owner ch = u ∧ ch < w'.created := by
  obtain ⟨owner, hmap, hcalls⟩ := h.owners
  have others {P : ℕ → UserId → ChannelId → Prop} (h' : ∀ u ch, c'.channel = some (u, ch) → P i u ch)
      (hold : ∀ j u ch, j ≠ i → (calls j).channel = some (u, ch) → P j u ch) :
      ∀ j u ch, (Function.update calls i c' j).channel = some (u, ch) → P j u ch := by
    intro j u ch hj
    by_cases hji : j = i
    · subst hji
      rw [Function.update_self] at hj
      exact h' u ch hj
    · rw [Function.update_of_ne hji] at hj
      exact hold j u ch hji hj
  cases he with
  | quiet hch hk hcr hsent hg hchannel hpos =>
    have hs : w'.senderOf = w.senderOf := by
      funext u
      simp only [Hub.senderOf, hch]
    refine ⟨owner, fun u ch hu => hcr ▸ hmap u ch (hs ▸ hu), others ?_ ?_⟩
    · intro u ch hu
      rw [hcr]
      rcases hchannel u ch hu with hold | hnew
      · exact hcalls i u ch (hi ▸ hold)
      · exact hmap u ch hnew
    · exact fun j u ch _ hj => hcr ▸ hcalls j u ch hj
  | opens u =>
    cases hu : w.channels u with
    | some e =>
      -- the entry is there: nothing is made
      have hcr : (subscribe X w u).1.created = w.created := by simp [subscribe, hu]
      have hch : (subscribe X w u).2 = e.sender := by simp [subscribe, hu]
      have hown := hmap u e.sender (by simp [Hub.senderOf, hu])
      refine ⟨owner, ?_, others ?_ ?_⟩
      · intro v ch hv
        rw [subscribe_senderOf, hch] at hv
        rw [hcr]
        split at hv
        · rename_i hvu
          obtain rfl := Option.some.inj hv
          exact hvu ▸ hown
        · exact hmap v ch hv
      · intro v ch hv
        obtain ⟨rfl, rfl⟩ := Prod.mk.inj (Option.some.inj hv)
        rw [hcr, hch]
        exact hown
      · exact fun j v ch _ hj => hcr ▸ hcalls j v ch hj
    | none =>
      -- a new channel, which nobody knows yet
      have hcr : (subscribe X w u).1.created = w.created + 1 := by simp [subscribe, hu]
      have hch : (subscribe X w u).2 = w.created := by simp [subscribe, hu]
      have old {v : UserId} {ch : ChannelId} (hv : owner ch = v ∧ ch < w.created) :
          Function.update owner w.created u ch = v ∧ ch < w.created + 1 :=
        ⟨(Function.update_of_ne hv.2.ne ..).trans hv.1, Nat.lt_succ_of_lt hv.2⟩
      have new : Function.update owner w.created u w.created = u ∧ w.created < w.created + 1 :=
        ⟨Function.update_self .., Nat.lt_succ_self _⟩
      refine ⟨Function.update owner w.created u, ?_, others ?_ ?_⟩
      · intro v ch hv
        rw [subscribe_senderOf, hch] at hv
        rw [hcr]
        split at hv
        · rename_i hvu
          obtain rfl := Option.some.inj hv
          exact hvu ▸ new
        · exact old (hmap v ch hv)
      · intro v ch hv
        obtain ⟨rfl, rfl⟩ := Prod.mk.inj (Option.some.inj hv)
        rw [hcr, hch]
        exact new
      · exact fun j v ch _ hj => hcr ▸ old (hcalls j v ch hj)
  | drops u ch hc hc' hchannel hpos =>
    have hcr : (unsubscribe w u).created = w.created := by
      unfold unsubscribe
      split <;> rfl
    refine ⟨owner, ?_, others ?_ ?_⟩
    · intro v k hv
      rw [unsubscribe_senderOf] at hv
      exact hcr ▸ hmap v k hv
    · intro v k hv
      rw [hcr]
      rcases hchannel with hnone | hsame
      · rw [hnone] at hv
        cases hv
      · obtain ⟨rfl, rfl⟩ := Prod.mk.inj (Option.some.inj (hsame.symm.trans hv))
        exact hmap u ch (h.routed i u ch (hi ▸ hc))
    · exact fun j v k _ hj => hcr ▸ hcalls j v k hj
  | removes now s u rest =>
    have hcr : (removeIf w now u).created = w.created := by
      unfold removeIf
      split <;> rfl
    refine ⟨owner, ?_, others (by simp [Call.channel]) fun j v k _ hj => hcr ▸ hcalls j v k hj⟩
    intro v k hv
    rw [removeIf_senderOf] at hv
    split at hv
    · cases hv
    · exact hcr ▸ hmap v k hv

theorem Effect.routed (he : Effect X w c w' c') (hi : calls i = c) (h : Inv w calls) :
    ∀ j u ch, (Function.update calls i c' j).guard = some (u, ch) → w'.senderOf u = some ch := by
  intro j u ch hj
  have hcase : (j = i ∧ c'.guard = some (u, ch)) ∨ (j ≠ i ∧ (calls j).guard = some (u, ch)) := by
    by_cases hji : j = i
    · subst hji
      rw [Function.update_self] at hj
      exact Or.inl ⟨rfl, hj⟩
    · rw [Function.update_of_ne hji] at hj
      exact Or.inr ⟨hji, hj⟩
  cases he with
  | quiet hch hk hcr hsent hg hchannel hpos =>
    have hs : w'.senderOf u = w.senderOf u := by simp only [Hub.senderOf, hch]
    rw [hs]
    rcases hcase with ⟨-, hg'⟩ | ⟨-, hg'⟩
    · exact h.routed i u ch (hi ▸ hg ▸ hg')
    · exact h.routed j u ch hg'
  | opens v =>
    rw [subscribe_senderOf]
    rcases hcase with ⟨-, hg'⟩ | ⟨-, hg'⟩
    · obtain ⟨rfl, rfl⟩ := Prod.mk.inj (Option.some.inj hg')
      exact if_pos rfl
    · have hold := h.routed j u ch hg'
      split
      · -- another socket of the same user: the entry is kept
        rename_i huv
        subst huv
        obtain ⟨e, he, hes⟩ := Option.map_eq_some_iff.mp hold
        simp [subscribe, he, hes]
      · exact hold
  | drops v k hc hc' hchannel hpos =>
    rw [unsubscribe_senderOf]
    rcases hcase with ⟨-, hg'⟩ | ⟨-, hg'⟩
    · rw [hc'] at hg'
      cases hg'
    · exact h.routed j u ch hg'
  | removes now s v rest =>
    rw [removeIf_senderOf]
    rcases hcase with ⟨-, hg'⟩ | ⟨-, hg'⟩
    · cases hg'
    · split
      · rename_i hv
        obtain ⟨rfl, hexp⟩ := hv
        refine absurd hg' (h.guard_ne ?_ j ch)
        intro e he
        exact ⟨now, by simpa [he] using hexp⟩
      · exact h.routed j u ch hg'

theorem Effect.counted (he : Effect X w c w' c') (hi : calls i = c) (h : Inv w calls)
    (hroom : ∀ u, c = .idle → c'.guard.map (·.1) = some u →
      ∀ e, w.channels u = some e → e.subscriberCount < X.usizeMax) (u : UserId) :
    (guards (Function.update calls i c') u).Finite ∧ ∀ e, w'.channels u = some e →
      e.subscriberCount = (guards (Function.update calls i c') u).ncard ∧
        (e.lastEmptyAt.isSome ↔ e.subscriberCount = 0) := by
  obtain ⟨hfin, hcount⟩ := h.counted u
  cases he with
  | quiet hch hk hcr hsent hg hchannel hpos =>
    rw [guards_same (hi ▸ hg), hch]
    exact ⟨hfin, hcount⟩
  | removes now s v rest =>
    rw [guards_same (by rw [hi]; rfl)]
    refine ⟨hfin, fun e hu => hcount e ?_⟩
    unfold removeIf at hu
    split at hu
    · by_cases huv : u = v
      · subst huv
        simp at hu
      · simpa [Function.update_of_ne huv] using hu
    · exact hu
  | opens v =>
    by_cases huv : u = v
    · subst huv
      have hnot : i ∉ guards calls u := by simp [guards, hi, Call.guard]
      rw [guards_opened rfl, Set.ncard_insert_of_notMem hnot hfin]
      refine ⟨hfin.insert i, fun e hu => ?_⟩
      unfold subscribe at hu
      split at hu
      · rename_i e' he'
        obtain rfl : _ = e := by simpa using hu
        have hlt := hroom u rfl rfl e' he'
        have hmin : min (e'.subscriberCount + 1) X.usizeMax = (guards calls u).ncard + 1 := by
          rw [← (hcount e' he').1]
          omega
        simp [hmin]
      · rename_i hnone
        obtain rfl : _ = e := by simpa using hu
        rw [guards_eq_empty fun j ch => h.guard_ne (by simp [hnone]) j ch]
        simp
    · rw [guards_other (u := v) (Or.inl (by rw [hi]; rfl)) (Or.inr rfl) huv]
      refine ⟨hfin, fun e hu => hcount e ?_⟩
      unfold subscribe at hu
      split at hu <;> simpa [Function.update_of_ne huv] using hu
  | drops v ch hc hc' hchannel hpos =>
    by_cases huv : u = v
    · subst huv
      have hmem : i ∈ guards calls u := by simp [guards, hi, hc]
      rw [guards_dropped hc', Set.ncard_sdiff_singleton_of_mem hmem]
      refine ⟨hfin.subset Set.sdiff_subset, fun e hu => ?_⟩
      obtain ⟨e', he', -⟩ := Option.map_eq_some_iff.mp (h.routed i u ch (hi ▸ hc))
      have hpos := (Set.ncard_pos hfin).mpr ⟨i, hmem⟩
      obtain ⟨hn, hempty⟩ := hcount e' he'
      unfold unsubscribe at hu
      rw [he'] at hu
      obtain rfl : _ = e := by simpa using hu
      refine ⟨by simp [hn], ?_⟩
      by_cases hone : e'.subscriberCount - 1 = 0
      · simp [hone]
      · have hsome : e'.lastEmptyAt.isSome = false := by
          rw [← Bool.not_eq_true, hempty]
          omega
        simp [hone, hsome]
    · rw [guards_other (u := v) (Or.inr (hi ▸ hc)) (Or.inl hc') huv]
      refine ⟨hfin, fun e hu => hcount e ?_⟩
      unfold unsubscribe at hu
      split at hu
      · exact hu
      · simpa [Function.update_of_ne huv] using hu

theorem Effect.keys (he : Effect X w c w' c') (h : w.Listed) : w'.Listed := by
  obtain ⟨hnodup, hmem⟩ := h
  cases he with
  | quiet hch hk hcr hsent hg hchannel hpos =>
    rw [Hub.Listed, hk, hch]
    exact ⟨hnodup, hmem⟩
  | opens v =>
    unfold subscribe
    split
    · rename_i e he
      refine ⟨hnodup, fun u => ?_⟩
      by_cases huv : u = v
      · subst huv
        simp [hmem, he]
      · simp [hmem, Function.update_of_ne huv]
    · rename_i hnone
      refine ⟨List.nodup_cons.mpr ⟨by simp [hmem, hnone], hnodup⟩, fun u => ?_⟩
      by_cases huv : u = v
      · subst huv
        simp
      · simp [hmem, huv]
  | drops v ch hc hc' hchannel hpos =>
    unfold unsubscribe
    split
    · exact ⟨hnodup, hmem⟩
    · rename_i e he
      refine ⟨hnodup, fun u => ?_⟩
      by_cases huv : u = v
      · subst huv
        simp [hmem, he]
      · simp [hmem, Function.update_of_ne huv]
  | removes now s v rest =>
    unfold removeIf
    split
    · refine ⟨hnodup.erase v, fun u => ?_⟩
      by_cases huv : u = v
      · subst huv
        simp [hnodup.not_mem_erase]
      · simp [hmem, List.mem_erase_of_ne huv, Function.update_of_ne huv]
    · exact ⟨hnodup, hmem⟩

theorem Effect.behind (he : Effect X w c w' c') (hi : calls i = c) (h : Inv w calls) :
    ∀ j ch pos, (Function.update calls i c' j).position = some (ch, pos) →
      pos ≤ (w'.sent ch).length := by
  have others (hle : ∀ ch, (w.sent ch).length ≤ (w'.sent ch).length)
      (h' : ∀ ch pos, c'.position = some (ch, pos) → pos ≤ (w'.sent ch).length) :
      ∀ j ch pos, (Function.update calls i c' j).position = some (ch, pos) →
        pos ≤ (w'.sent ch).length := by
    intro j ch pos hj
    by_cases hji : j = i
    · subst hji
      rw [Function.update_self] at hj
      exact h' ch pos hj
    · rw [Function.update_of_ne hji] at hj
      exact (h.behind j ch pos hj).trans (hle ch)
  cases he with
  | quiet hch hk hcr hsent hg hchannel hpos => exact others (fun ch => (hsent ch).length_le) hpos
  | opens v =>
    have hs : (subscribe X w v).1.sent = w.sent := by
      unfold subscribe
      split <;> rfl
    exact others (fun ch => by rw [hs]) (by simp [Call.position])
  | drops v ch hc hc' hchannel hpos =>
    have hs : (unsubscribe w v).sent = w.sent := by
      unfold unsubscribe
      split <;> rfl
    refine others (fun ch => by rw [hs]) fun ch pos hp => ?_
    rw [hs]
    exact h.behind i ch pos (hi ▸ hpos _ hp)
  | removes now s v rest =>
    have hs : (removeIf w now v).sent = w.sent := by
      unfold removeIf
      split <;> rfl
    exact others (fun ch => by rw [hs]) (by simp [Call.position])

end Step

section Runs

variable {c d : Config} {a : Act Input Env}

/-- The counter of a user who opens a socket is not at the last `usize`. -/
def Counts (X : Platform) (c : Config) : Act Input Env → Prop
  | .call _ (.connect u) => ∀ e ∈ c.shared.channels u, e.subscriberCount < X.usizeMax
  | _ => True

instance (c : Config) : DecidablePred (Counts X c)
  | .call _ (.connect u) =>
    inferInstanceAs (Decidable (∀ e ∈ c.shared.channels u, e.subscriberCount < X.usizeMax))
  | .call _ (.publish ..) | .call _ .sweep | .call _ .ok | .call _ .leave | .call _ .fail
  | .env _ => inferInstanceAs (Decidable True)

/-- Only a connecting socket takes a guard. -/
theorem connect_of_exec {x : Input} {w w' : Hub} {l : Call} {es : List Event}
    (h : exec X i x w .idle = some (w', l, es)) {u : UserId} (hu : l.guard.map (·.1) = some u) :
    x = .connect u := by
  cases x with
  | connect v =>
    simp only [exec] at h
    split at h
    · obtain ⟨-, rfl, -⟩ := Option.some.inj h
      exact congrArg Input.connect (Option.some.inj hu)
    · cases h
  | publish v msg =>
    simp only [exec] at h
    split at h
    all_goals
      obtain ⟨-, rfl, -⟩ := Option.some.inj h
      cases hu
  | sweep =>
    obtain ⟨-, rfl, -⟩ := Option.some.inj h
    cases hu
  | ok | leave | fail => cases h

theorem Inv.next (h : Inv c.shared c.calls) (hg : Counts X c a)
    (hn : (system X).next c a = some d) : Inv d.shared d.calls := by
  cases a with
  | call i x =>
    obtain ⟨w, l, es, he, rfl⟩ := System.next_call_eq_some.mp hn
    have hE := exec_effect he
    refine ⟨hE.owners rfl h, hE.routed rfl h, hE.counted rfl h ?_, hE.keys h.keys, hE.behind rfl h⟩
    intro u hidle hu e hue
    change exec X i x c.shared (c.calls i) = _ at he
    rw [hidle] at he
    obtain rfl := connect_of_exec he hu
    exact hg e hue
  | env b =>
    obtain ⟨w, hw, rfl⟩ := System.next_env_eq_some.mp hn
    obtain rfl := Option.some.inj hw
    exact ⟨h.owners, h.routed, h.counted, h.keys, h.behind⟩

theorem initial_inv (t : ℕ) : Inv (initial t).shared (initial t).calls where
  owners := ⟨fun _ => 0, by simp [initial, Hub.senderOf], by simp [initial, Call.channel]⟩
  routed := by simp [initial, Call.guard]
  counted u := by simp [initial, guards, Call.guard]
  keys := by simp [initial, Hub.Listed]
  behind := by simp [initial, Call.position]

theorem inv_of_run {t : ℕ} {as : List (Act Input Env)} (hg : (system X).Meets (Counts X) (initial t) as)
    (h : (system X).run (initial t) as = some c) : Inv c.shared c.calls :=
  System.run_induction (I := fun x => Inv x.shared x.calls) (fun _ _ _ hx hc hn => hx.next hc hn)
    (initial_inv t) hg h

end Runs

end Thcdb.Notifications
