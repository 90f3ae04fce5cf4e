import Thcdb.Notifications.Channels

namespace Thcdb.Notifications
open Auth Interleaving Broadcast
open scoped List

def sentOn (ch : ChannelId) (log : List Event) : List String :=
  log.filterMap fun
    | .sent _ _ c msg => if c = ch then some msg else none
    | _ => none

def receivedBy (j : ℕ) (log : List Event) : List String :=
  log.filterMap fun
    | .received i msg => if i = j then some msg else none
    | _ => none

@[simp] theorem sentOn_append (ch : ChannelId) (log es : List Event) :
    sentOn ch (log ++ es) = sentOn ch log ++ sentOn ch es := List.filterMap_append

@[simp] theorem receivedBy_append (j : ℕ) (log es : List Event) :
    receivedBy j (log ++ es) = receivedBy j log ++ receivedBy j es := List.filterMap_append

/-- The send task of the socket has ended, or has been told to. -/
def Call.Left : Call → Prop
  | .ended .. | .released .. | .done => True
  | .idle | .attaching .. | .connected .. | .sending .. | .sweeping .. | .removing .. => False

variable {X : Platform} {i : ℕ} {a : Input} {w w' : Hub} {c l : Call} {es : List Event}

inductive Logs (i : ℕ) (w : Hub) : Call → Hub → List Event → Prop
  | sent (u : UserId) (ch : ChannelId) (msg : String) {w' : Hub}
      (hw : w'.sent = Function.update w.sent ch (w.sent ch ++ [msg])) :
      Logs i w (.sending u ch msg) w' [.sent i u ch msg]
  | nothing {c : Call} {w' : Hub} {es : List Event} (hw : w'.sent = w.sent)
      (hes : ∀ e ∈ es, e = .lagged i ∨ e = .closed i ∨ ∃ msg, e = .received i msg) : Logs i w c w' es

theorem readNext_logs {u : UserId} {ch : ChannelId} {pos : ℕ} {stay : ℕ → Call} {gone : Call}
    (h : readNext i w u ch pos stay gone = some (w', l, es)) : Logs i w c w' es := by
  unfold readNext at h
  split at h
  · obtain ⟨rfl, -, rfl⟩ := Option.some.inj h
    exact .nothing rfl (by simp)
  · obtain ⟨rfl, -, rfl⟩ := Option.some.inj h
    exact .nothing rfl (by simp)
  · split at h
    · cases h
    · obtain ⟨rfl, -, rfl⟩ := Option.some.inj h
      exact .nothing rfl (by simp)

@[simp] theorem subscribe_sent (u : UserId) : (subscribe X w u).1.sent = w.sent := by
  unfold subscribe
  split <;> rfl

@[simp] theorem unsubscribe_sent (u : UserId) : (unsubscribe w u).sent = w.sent := by
  unfold unsubscribe
  split <;> rfl

@[simp] theorem removeIf_sent (now : ℕ) (u : UserId) : (removeIf w now u).sent = w.sent := by
  unfold removeIf
  split <;> rfl

theorem exec_logs (h : exec X i a w c = some (w', l, es)) : Logs i w c w' es := by
  unfold exec at h
  split at h
  case h_10 u ch msg =>
    obtain ⟨rfl, -, rfl⟩ := Option.some.inj h
    exact .sent u ch msg rfl
  case h_3 | h_7 => exact readNext_logs h
  case h_15 => cases h
  case h_12 | h_13 =>
    -- taking or leaving a lock sends nothing
    try split at h
    all_goals
      obtain ⟨rfl, -, rfl⟩ := Option.some.inj h
      exact .nothing (by try split
                         all_goals rfl) (by simp)
  all_goals
    try split at h
    all_goals cases h
  all_goals exact .nothing (by simp) (by simp)

/-- What becomes of an open socket by a statement of its own. -/
theorem exec_connected {u : UserId} {ch : ChannelId} {pos : ℕ}
    (h : exec X i a w (.connected u ch pos) = some (w', l, es)) :
    l.Left ∨ w' = w ∧ ∃ pos', l = .connected u ch pos' ∧
      ((∃ msg, es = [.received i msg] ∧ unread (w.sent ch) pos = msg :: unread (w.sent ch) pos') ∨
        es = [.lagged i] ∧ unread (w.sent ch) pos' <:+ unread (w.sent ch) pos) := by
  cases a with
  | connect | publish | sweep => cases h
  | fail =>
    obtain ⟨-, rfl, -⟩ := Option.some.inj h
    exact Or.inl trivial
  | leave =>
    simp only [exec] at h
    split at h
    · obtain ⟨-, rfl, -⟩ := Option.some.inj h
      exact Or.inl trivial
    · cases h
  | ok =>
    simp only [exec, readNext] at h
    split at h
    · rename_i msg pos' hr
      obtain ⟨rfl, rfl, rfl⟩ := Option.some.inj h
      exact Or.inr ⟨rfl, pos', rfl, Or.inl ⟨msg, rfl, (recv_eq_message hr).2.2⟩⟩
    · rename_i pos' hr
      obtain ⟨rfl, rfl, rfl⟩ := Option.some.inj h
      exact Or.inr ⟨rfl, pos', rfl, Or.inr ⟨rfl, (recv_eq_lagged hr).2.2.1⟩⟩
    · split at h
      · cases h
      · obtain ⟨-, rfl, -⟩ := Option.some.inj h
        exact Or.inl trivial

theorem exec_left (h : exec X i a w c = some (w', l, es)) (hc : c.Left) : l.Left := by
  cases c with
  | idle | attaching | connected | sending | sweeping | removing => exact hc.elim
  | done => cases a <;> cases h
  | ended u ch =>
    cases a with
    | ok =>
      simp only [exec] at h
      split at h
      · obtain ⟨-, rfl, -⟩ := Option.some.inj h
        trivial
      · cases h
    | connect | publish | sweep | leave | fail => cases h
  | released u ch pos =>
    cases a with
    | ok =>
      simp only [exec, readNext] at h
      repeat' split at h
      all_goals
        cases h
        try trivial
    | fail =>
      obtain ⟨-, rfl, -⟩ := Option.some.inj h
      trivial
    | connect | publish | sweep | leave => cases h

/-- A publisher's sender is the one the map names when the publisher looks. -/
theorem sending_of_exec {u : UserId} {ch : ChannelId} {msg : String}
    (h : exec X i a w c = some (w', .sending u ch msg, es)) : w.senderOf u = some ch := by
  unfold exec at h
  split at h
  case h_3 | h_7 =>
    unfold readNext at h
    repeat' split at h
    all_goals cases h
  case h_9 =>
    split at h
    · cases h
    · rename_i e he
      cases h
      simp [Hub.senderOf, he]
  all_goals
    try split at h
    all_goals cases h

/-- How things stand for socket `j`, open at `x` at position `n`, after more has been logged. -/
structure Stream (x : Config) (j : ℕ) (u : UserId) (ch : ChannelId) (n : ℕ) (z : Config) (m : ℕ)
    (new : List Event) : Prop where
  /-- what it got and has still to read is part of what was there and what came -/
  ordered : receivedBy j new ++ unread (z.shared.sent ch) m <+
    unread (x.shared.sent ch) n ++ sentOn ch new
  /-- and is all of it if it never fell behind -/
  complete : .lagged j ∉ new →
    receivedBy j new ++ unread (z.shared.sent ch) m = unread (x.shared.sent ch) n ++ sentOn ch new
  /-- only messages to its user come on its channel, and all whose publisher had yet to look -/
  routed : ∀ i v k msg, .sent i v k msg ∈ new →
    (k = ch → v = u) ∧ (v = u → k = ch ∨ x.calls i = .sending u k msg)
  /-- whoever is about to send to the user sends there, or had looked before -/
  sending : ∀ i k msg, z.calls i = .sending u k msg → k = ch ∨ x.calls i = .sending u k msg

section Run

variable {x z d : Config} {j : ℕ} {u : UserId} {ch : ChannelId} {n m : ℕ} {new : List Event}

theorem Stream.start : Stream x j u ch n x n [] where
  ordered := by simp [sentOn, receivedBy]
  complete := by simp [sentOn, receivedBy]
  routed := by simp
  sending _ _ _ hi := Or.inr hi

/-- A statement of the socket itself moves it along its channel, or ends it. -/
theorem Stream.own (h : Stream x j u ch n z m new) {a : Input}
    (he : exec X j a z.shared (.connected u ch m) = some (w', l, es)) :
    l.Left ∨ ∃ m', l = .connected u ch m' ∧
      Stream x j u ch n ⟨w', Function.update z.calls j l, z.log ++ es⟩ m' (new ++ es) := by
  rcases exec_connected he with hl | ⟨rfl, m', rfl, hcase⟩
  · exact Or.inl hl
  · refine Or.inr ⟨m', rfl, ?_⟩
    have hsending : ∀ i k msg, Function.update z.calls j (.connected u ch m') i =
        .sending u k msg → k = ch ∨ x.calls i = .sending u k msg := by
      intro i k msg hi
      by_cases hij : i = j
      · subst hij
        simp at hi
      · rw [Function.update_of_ne hij] at hi
        exact h.sending i k msg hi
    rcases hcase with ⟨msg, rfl, hread⟩ | ⟨rfl, hskip⟩
    · -- the oldest message leaves the unread part for the received one
      have hmove : receivedBy j (new ++ [.received j msg]) ++ unread (z.shared.sent ch) m' =
          receivedBy j new ++ unread (z.shared.sent ch) m := by
        simp [receivedBy, hread]
      have hsent : sentOn ch (new ++ [.received j msg]) = sentOn ch new := by simp [sentOn]
      refine ⟨?_, ?_, ?_, hsending⟩
      · rw [hmove, hsent]
        exact h.ordered
      · intro hlag
        rw [hmove, hsent]
        exact h.complete fun hmem => hlag (List.mem_append_left _ hmem)
      · intro i v k msg' hmem
        exact h.routed i v k msg' (by simpa using hmem)
    · have hsent : sentOn ch (new ++ [.lagged j]) = sentOn ch new := by simp [sentOn]
      have hgot : receivedBy j (new ++ [.lagged j]) = receivedBy j new := by simp [receivedBy]
      refine ⟨?_, fun hlag => absurd (by simp) hlag, ?_, hsending⟩
      · rw [hsent, hgot]
        exact (hskip.sublist.append_left _).trans h.ordered
      · intro i v k msg' hmem
        exact h.routed i v k msg' (by simpa using hmem)

/-- A statement of another call sends on the channel, or leaves it alone. -/
theorem Stream.other (h : Stream x j u ch n z m new) (hz : Inv z.shared z.calls)
    (hj : z.calls j = .connected u ch m) {i : ℕ} (hij : i ≠ j) {a : Input}
    (he : exec X i a z.shared (z.calls i) = some (w', l, es)) :
    Stream x j u ch n ⟨w', Function.update z.calls i l, z.log ++ es⟩ m (new ++ es) := by
  have hroute := hz.routed j u ch (by rw [hj]; rfl)
  have hsending : ∀ i' k msg, Function.update z.calls i l i' = .sending u k msg →
      k = ch ∨ x.calls i' = .sending u k msg := by
    intro i' k msg hi
    by_cases hii : i' = i
    · subst hii
      rw [Function.update_self] at hi
      subst hi
      exact Or.inl (Option.some.inj ((sending_of_exec he).symm.trans hroute))
    · rw [Function.update_of_ne hii] at hi
      exact h.sending i' k msg hi
  have hlogs := exec_logs he
  generalize hcall : z.calls i = c at hlogs
  cases hlogs with
  | sent v k msg hw =>
    have hgot : receivedBy j (new ++ [.sent i v k msg]) = receivedBy j new := by simp [receivedBy]
    have hlagged (hlag : .lagged j ∉ new ++ [.sent i v k msg]) : .lagged j ∉ new :=
      fun hmem => hlag (List.mem_append_left _ hmem)
    have hrouted : ∀ i' v' k' msg', .sent i' v' k' msg' ∈ new ++ [.sent i v k msg] →
        (k' = ch → v' = u) ∧ (v' = u → k' = ch ∨ x.calls i' = .sending u k' msg') := by
      intro i' v' k' msg' hmem
      rcases List.mem_append.mp hmem with hmem | hmem
      · exact h.routed i' v' k' msg' hmem
      · obtain ⟨rfl, rfl, rfl, rfl⟩ := Event.sent.inj (List.mem_singleton.mp hmem)
        obtain ⟨owner, hmap, hcalls⟩ := hz.owners
        constructor
        · rintro rfl
          have hi := (hcalls i' v' k' (by rw [hcall]; rfl)).1
          exact hi.symm.trans (hcalls j u k' (by rw [hj]; rfl)).1
        · rintro rfl
          exact h.sending i' k' msg' hcall
    by_cases hk : k = ch
    · subst hk
      have hsent : sentOn k (new ++ [.sent i v k msg]) = sentOn k new ++ [msg] := by simp [sentOn]
      have hunread : unread (w'.sent k) m = unread (z.shared.sent k) m ++ [msg] := by
        rw [hw, Function.update_self]
        exact unread_send (hz.behind j k m (by rw [hj]; rfl))
      refine ⟨?_, fun hlag => ?_, hrouted, hsending⟩
      · rw [hgot, hsent, hunread, ← List.append_assoc, ← List.append_assoc]
        exact h.ordered.append (List.Sublist.refl _)
      · rw [hgot, hsent, hunread, ← List.append_assoc, ← List.append_assoc, h.complete (hlagged hlag)]
    · have hsent : sentOn ch (new ++ [.sent i v k msg]) = sentOn ch new := by simp [sentOn, hk]
      have hsame : w'.sent ch = z.shared.sent ch := by
        rw [hw, Function.update_of_ne (Ne.symm hk)]
      refine ⟨?_, fun hlag => ?_, hrouted, hsending⟩
      · rw [hgot, hsent, hsame]
        exact h.ordered
      · rw [hgot, hsent, hsame]
        exact h.complete (hlagged hlag)
  | nothing hw hes =>
    have hgot : receivedBy j es = [] := by
      rw [receivedBy, List.filterMap_eq_nil_iff]
      intro e hmem
      rcases hes e hmem with rfl | rfl | ⟨msg, rfl⟩
      · rfl
      · rfl
      · exact if_neg hij
    have hsent : sentOn ch es = [] := by
      rw [sentOn, List.filterMap_eq_nil_iff]
      intro e hmem
      rcases hes e hmem with rfl | rfl | ⟨msg, rfl⟩ <;> rfl
    refine ⟨?_, fun hlag => ?_, ?_, hsending⟩
    · rw [receivedBy_append, sentOn_append, hgot, hsent, hw, List.append_nil, List.append_nil]
      exact h.ordered
    · rw [receivedBy_append, sentOn_append, hgot, hsent, hw, List.append_nil, List.append_nil]
      exact h.complete fun hmem => hlag (List.mem_append_left _ hmem)
    · intro i' v k msg hmem
      rcases List.mem_append.mp hmem with hmem | hmem
      · exact h.routed i' v k msg hmem
      · rcases hes _ hmem with heq | heq | ⟨msg', heq⟩ <;> cases heq

def Follows (x : Config) (j : ℕ) (u : UserId) (ch : ChannelId) (n : ℕ) (z : Config) : Prop :=
  (z.calls j).Left ∨ ∃ m new, z.calls j = .connected u ch m ∧ z.log = x.log ++ new ∧
    Stream x j u ch n z m new

theorem Follows.next {a : Act Input Env} (h : Follows x j u ch n z) (hz : Inv z.shared z.calls)
    (hn : (system X).next z a = some d) : Follows x j u ch n d := by
  cases a with
  | env b =>
    obtain ⟨s, hs, rfl⟩ := System.next_env_eq_some.mp hn
    obtain rfl := Option.some.inj hs
    rcases h with hleft | ⟨m, new, hm, hlog, hstream⟩
    · exact Or.inl hleft
    · exact Or.inr ⟨m, new, hm, hlog, hstream.ordered, hstream.complete, hstream.routed,
        hstream.sending⟩
  | call i b =>
    obtain ⟨s, l, es, he, rfl⟩ := System.next_call_eq_some.mp hn
    change exec X i b z.shared (z.calls i) = _ at he
    by_cases hij : i = j
    · subst hij
      rcases h with hleft | ⟨m, new, hm, hlog, hstream⟩
      · refine Or.inl ?_
        simpa using exec_left he hleft
      · rw [hm] at he
        rcases hstream.own he with hleft | ⟨m', rfl, hstream'⟩
        · refine Or.inl ?_
          simpa using hleft
        · exact Or.inr ⟨m', new ++ es, by simp, by simp [hlog], hstream'⟩
    · rcases h with hleft | ⟨m, new, hm, hlog, hstream⟩
      · refine Or.inl ?_
        simpa [Function.update_of_ne (Ne.symm hij)] using hleft
      · exact Or.inr ⟨m, new ++ es, by simpa [Function.update_of_ne (Ne.symm hij)] using hm,
          by simp [hlog], hstream.other hz hm hij he⟩

end Run

/-- However sockets, publishers, guards and clean-up passes interleave: while a socket holds its
guard, its user's entry names its channel and counts it; while it is open, its send task waits only
when all is read, and what it gets and has still to read is what was sent on the channel, in order,
each message once, less what it skipped when it fell more than a buffer behind. All messages to its
user come that way whose publisher looked up the channel after the socket opened, and no other user's
do. -/
theorem socket_stream (X : Platform) (t : ℕ) (as bs : List (Act Input Env)) (x y : Config)
    (hroom : (system X).Meets (Counts X) (initial t) (as ++ bs))
    (hx : (system X).run (initial t) as = some x) (hy : (system X).run x bs = some y) :
    (∀ i u ch, (y.calls i).guard = some (u, ch) → ∃ e, y.shared.channels u = some e ∧
      e.sender = ch ∧ e.subscriberCount = (guards y.calls u).ncard) ∧
    ∀ j u ch n m, x.calls j = .connected u ch n → y.calls j = .connected u ch m →
      (∃ new, y.log = x.log ++ new ∧
        receivedBy j new ++ unread (y.shared.sent ch) m <+
          unread (x.shared.sent ch) n ++ sentOn ch new ∧
        (.lagged j ∉ new → receivedBy j new ++ unread (y.shared.sent ch) m =
          unread (x.shared.sent ch) n ++ sentOn ch new) ∧
        ∀ i v k msg, .sent i v k msg ∈ new →
          (k = ch → v = u) ∧ (v = u → k = ch ∨ x.calls i = .sending u k msg)) ∧
      ((system X).next y (.call j .ok) = none ↔ unread (y.shared.sent ch) m = []) := by
  obtain ⟨hroomx, hroomy⟩ := (System.meets_append hx).mp hroom
  have hinvx := inv_of_run hroomx hx
  have hinvy : Inv y.shared y.calls :=
    inv_of_run hroom (System.run_append_eq_some.mpr ⟨x, hx, hy⟩)
  constructor
  · intro i u ch hi
    obtain ⟨e, he, hes⟩ := Option.map_eq_some_iff.mp (hinvy.routed i u ch hi)
    exact ⟨e, he, hes, ((hinvy.counted u).2 e he).1⟩
  intro j u ch n m hj hj'
  have hfollows : Follows x j u ch n y := by
    have h := System.run_induction
      (I := fun z => Inv z.shared z.calls ∧ Follows x j u ch n z)
      (fun z a d hz hc hn => ⟨hz.1.next hc hn, hz.2.next hz.1 hn⟩)
      ⟨hinvx, Or.inr ⟨n, [], hj, by simp, Stream.start⟩⟩ hroomy hy
    exact h.2
  constructor
  · rcases hfollows with hleft | ⟨m', new, hm, hlog, hstream⟩
    · rw [hj'] at hleft
      exact hleft.elim
    · obtain ⟨-, -, rfl⟩ := Call.connected.inj (hj'.symm.trans hm)
      exact ⟨new, hlog, hstream.ordered, hstream.complete, hstream.routed⟩
  · have hsender := hinvy.routed j u ch (by rw [hj']; rfl)
    rw [← @recv_eq_caughtUp _ channelCapacity]
    simp only [System.next, Option.map_eq_none_iff, system, hj', exec, readNext]
    split
    · rename_i hr
      simp [hr]
    · rename_i hr
      simp [hr]
    · rename_i hr
      simp only [hr, iff_true]
      exact if_pos hsender

/-- Four shards, all users in the first, and iterators that lock. -/
def Platform.plain : Platform := ⟨2 ^ 64 - 1, 4, fun _ => 0, fun _ => by decide, true⟩

def plainOpen : List (Act Input Env) := [.call 0 (.connect 7), .call 0 .ok]

/-- Two messages, of which one is for the user of the open socket. -/
def plainPublish : List (Act Input Env) :=
  [.call 1 (.publish 7 "approved"), .call 2 (.connect 8), .call 2 .ok,
    .call 3 (.publish 8 "rejected"), .call 1 .ok, .call 3 .ok, .call 0 .ok]

theorem plainOpen_call : ((system Platform.plain).run (initial 0) plainOpen).map
    (fun c => (c.calls 0, c.log)) = some (.connected 7 0 0, []) := by
  decide

theorem plainPublish_call : ((system Platform.plain).run (initial 0)
    (plainOpen ++ plainPublish)).map (fun c => (c.calls 0, c.log)) = some (.connected 7 0 1,
      [.sent 1 7 0 "approved", .sent 3 8 1 "rejected", .received 0 "approved"]) := by
  decide

theorem socket_stream_plain : ∃ x y,
    (system Platform.plain).run (initial 0) plainOpen = some x ∧
    (system Platform.plain).run x plainPublish = some y ∧ ∃ new, y.log = x.log ++ new ∧
      receivedBy 0 new ++ unread (y.shared.sent 0) 1 = unread (x.shared.sent 0) 0 ++ sentOn 0 new := by
  obtain ⟨y, hrun, hy⟩ := Option.map_eq_some_iff.mp plainPublish_call
  obtain ⟨x, hx, hxy⟩ := System.run_append_eq_some.mp hrun
  have hcall := plainOpen_call
  rw [hx, Option.map_some, Option.some.injEq, Prod.mk.injEq] at hcall
  obtain ⟨hycall, hylog⟩ := Prod.mk.inj hy
  have hstream := (socket_stream Platform.plain 0 plainOpen plainPublish x y (by decide) hx hxy).2
  obtain ⟨⟨new, hnew, -, hall, -⟩, -⟩ := hstream 0 7 0 0 1 hcall.1 hycall
  refine ⟨x, y, hx, hxy, new, hnew, hall ?_⟩
  rw [hylog, hcall.2, List.nil_append] at hnew
  rw [← hnew]
  decide

end Thcdb.Notifications
