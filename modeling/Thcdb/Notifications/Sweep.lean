import Thcdb.Notifications.Delivery

namespace Thcdb.Notifications
open Auth Interleaving

def Call.inShard : Call → Option ℕ
  | .removing _ s _ => some s
  | .idle | .attaching .. | .connected .. | .ended .. | .released .. | .sending .. | .sweeping ..
  | .done => none

variable {X : Platform} {i : ℕ} {a : Input} {w w' : Hub} {c l : Call} {es : List Event}

@[simp] theorem subscribe_readers (u : UserId) : (subscribe X w u).1.readers = w.readers := by
  unfold subscribe
  split <;> rfl

@[simp] theorem unsubscribe_readers (u : UserId) : (unsubscribe w u).readers = w.readers := by
  unfold unsubscribe
  split <;> rfl

@[simp] theorem removeIf_readers (now : ℕ) (u : UserId) :
    (removeIf w now u).readers = w.readers := by
  unfold removeIf
  split <;> rfl

inductive Locks (X : Platform) (i : ℕ) (w : Hub) : Call → Hub → Call → Prop
  | keeps {c l : Call} {w' : Hub} (hw : w'.readers = w.readers) (hl : l.inShard = c.inShard)
      (hrest : ∀ now s rest, l = .removing now s rest → ∃ u, c = .removing now s (u :: rest)) :
      Locks X i w c w' l
  | enters (now s : ℕ) : Locks X i w (.sweeping now s) (if X.iterLocks then lockShard w i s else w)
      (.removing now s (toRemove X w now s))
  | exits (now s : ℕ) : Locks X i w (.removing now s []) (if X.iterLocks then unlockShard w i s else w)
      (.sweeping now (s + 1))

theorem exec_locks (h : exec X i a w c = some (w', l, es)) : Locks X i w c w' l := by
  unfold exec at h
  split at h
  case h_3 | h_7 =>
    unfold readNext at h
    repeat' split at h
    all_goals cases h
    all_goals exact .keeps rfl rfl (by simp)
  case h_12 =>
    split at h
    · obtain ⟨rfl, rfl, -⟩ := Option.some.inj h
      exact .enters _ _
    · obtain ⟨rfl, rfl, -⟩ := Option.some.inj h
      exact .keeps rfl rfl (by simp)
  case h_13 =>
    obtain ⟨rfl, rfl, -⟩ := Option.some.inj h
    exact .exits _ _
  case h_14 now s u rest =>
    split at h
    · obtain ⟨rfl, rfl, -⟩ := Option.some.inj h
      exact .keeps (by simp) rfl (by simp)
    · cases h
  all_goals
    try split at h
    all_goals cases h
  all_goals exact .keeps (by simp) rfl (by simp)

/-- A shard is locked by the passes that are in it, and a pass is after users of its shard. -/
structure Locked (X : Platform) (w : Hub) (calls : ℕ → Call) : Prop where
  nodup : ∀ s, (w.readers s).Nodup
  readers : ∀ s i, i ∈ w.readers s ↔ (calls i).inShard = some s
  rest : ∀ i now s rest, calls i = .removing now s rest → ∀ u ∈ rest, X.shard u = s

section Step

variable {calls : ℕ → Call}

theorem Locked.rest_update (h : Locked X w calls) (hl : ∀ now s rest, l = .removing now s rest →
    ∀ u ∈ rest, X.shard u = s) (j now s : ℕ) (rest : List UserId)
    (hj : Function.update calls i l j = .removing now s rest) : ∀ u ∈ rest, X.shard u = s := by
  by_cases hji : j = i
  · subst hji
    rw [Function.update_self] at hj
    exact hl now s rest hj
  · rw [Function.update_of_ne hji] at hj
    exact h.rest j now s rest hj

theorem Locks.locked (hX : X.iterLocks = true) (hE : Locks X i w c w' l) (hi : calls i = c)
    (h : Locked X w calls) : Locked X w' (Function.update calls i l) := by
  cases hE with
  | keeps hw hl hrest =>
    refine ⟨fun s => hw ▸ h.nodup s, fun s j => ?_, h.rest_update ?_⟩
    · rw [hw, h.readers s j]
      by_cases hji : j = i
      · subst hji
        rw [Function.update_self, hl, hi]
      · rw [Function.update_of_ne hji]
    · intro now s rest hlr u hu
      obtain ⟨v, rfl⟩ := hrest now s rest hlr
      exact h.rest i now s (v :: rest) hi u (List.mem_cons_of_mem v hu)
  | enters now s =>
    rw [if_pos hX]
    have hout (k : ℕ) : i ∉ w.readers k := by
      rw [h.readers, hi]
      simp [Call.inShard]
    refine ⟨fun k => ?_, fun k j => ?_, h.rest_update ?_⟩
    · by_cases hk : k = s
      · subst hk
        simpa [lockShard] using ⟨hout k, h.nodup k⟩
      · simpa [lockShard, hk] using h.nodup k
    · by_cases hji : j = i
      · subst hji
        rw [Function.update_self]
        by_cases hk : k = s
        · subst hk
          simp [lockShard, Call.inShard]
        · simp [lockShard, Call.inShard, hk, hout k, Ne.symm hk]
      · rw [Function.update_of_ne hji, ← h.readers k j]
        by_cases hk : k = s
        · subst hk
          simp [lockShard, hji]
        · simp [lockShard, hk]
    · intro now' s' rest hlr u hu
      obtain ⟨rfl, rfl, rfl⟩ := Call.removing.inj hlr
      exact (of_decide_eq_true (List.mem_filter.mp hu).2).1
  | exits now s =>
    rw [if_pos hX]
    have hin (k : ℕ) : i ∈ w.readers k ↔ k = s := by
      rw [h.readers, hi]
      simp [Call.inShard, eq_comm]
    refine ⟨fun k => ?_, fun k j => ?_, h.rest_update (by simp)⟩
    · by_cases hk : k = s
      · subst hk
        simpa [unlockShard] using (h.nodup k).erase i
      · simpa [unlockShard, hk] using h.nodup k
    · by_cases hji : j = i
      · subst hji
        rw [Function.update_self]
        by_cases hk : k = s
        · subst hk
          simp [unlockShard, Call.inShard, (h.nodup k).not_mem_erase]
        · simp [unlockShard, Call.inShard, hk, hin k]
      · rw [Function.update_of_ne hji, ← h.readers k j]
        by_cases hk : k = s
        · subst hk
          simp [unlockShard, List.mem_erase_of_ne hji]
        · simp [unlockShard, hk]

end Step

section Runs

variable {x y z : Config} {b : Act Input Env}

theorem Locked.next (hX : X.iterLocks = true) (h : Locked X x.shared x.calls)
    (hn : (system X).next x b = some y) : Locked X y.shared y.calls := by
  cases b with
  | call i a =>
    obtain ⟨w, l, es, he, rfl⟩ := System.next_call_eq_some.mp hn
    exact (exec_locks he).locked hX rfl h
  | env e =>
    obtain ⟨w, hw, rfl⟩ := System.next_env_eq_some.mp hn
    obtain rfl := Option.some.inj hw
    exact ⟨h.nodup, h.readers, h.rest⟩

theorem Listed.next (h : x.shared.Listed) (hn : (system X).next x b = some y) :
    y.shared.Listed := by
  cases b with
  | call i a =>
    obtain ⟨w, l, es, he, rfl⟩ := System.next_call_eq_some.mp hn
    exact (exec_effect he).keys h
  | env e =>
    obtain ⟨w, hw, rfl⟩ := System.next_env_eq_some.mp hn
    obtain rfl := Option.some.inj hw
    exact h

/-- A pass never gets to remove what it is after, for it is in the way itself. -/
theorem not_writable (h : Locked X x.shared x.calls) {i now s : ℕ} {u : UserId}
    {rest : List UserId} (hi : x.calls i = .removing now s (u :: rest)) :
    ¬ x.shared.Writable X u := by
  have hmem : i ∈ x.shared.readers s := by rw [h.readers, hi]; rfl
  have hshard := h.rest i now s (u :: rest) hi u List.mem_cons_self
  intro hw
  rw [Hub.Writable, hshard] at hw
  rw [hw] at hmem
  cases hmem

theorem subscribe_channels_of_ne {u v : UserId} (hv : v ≠ u) :
    (subscribe X w u).1.channels v = w.channels v := by
  unfold subscribe
  split <;> simp [Function.update_of_ne hv]

theorem unsubscribe_channels_of_ne {u v : UserId} (hv : v ≠ u) :
    (unsubscribe w u).channels v = w.channels v := by
  unfold unsubscribe
  split
  · rfl
  · simp [Function.update_of_ne hv]

theorem removeIf_channels_of_ne {now : ℕ} {u v : UserId} (hv : v ≠ u) :
    (removeIf w now u).channels v = w.channels v := by
  unfold removeIf
  split
  · simp [Function.update_of_ne hv]
  · rfl

/-- An entry is written only where no iterator is. -/
theorem channels_of_exec (h : exec X i a w c = some (w', l, es)) {v : UserId}
    (hv : ¬ w.Writable X v) : w'.channels v = w.channels v := by
  have ne {u : UserId} (hu : w.Writable X u) : v ≠ u := fun hvu => hv (hvu ▸ hu)
  unfold exec at h
  split at h
  case h_1 u =>
    split at h
    · rename_i hu
      obtain ⟨rfl, -, -⟩ := Option.some.inj h
      exact subscribe_channels_of_ne (ne hu)
    · cases h
  case h_5 u ch pos =>
    split at h
    · rename_i hu
      obtain ⟨rfl, -, -⟩ := Option.some.inj h
      exact unsubscribe_channels_of_ne (ne hu)
    · cases h
  case h_6 u ch =>
    split at h
    · rename_i hu
      obtain ⟨rfl, -, -⟩ := Option.some.inj h
      exact unsubscribe_channels_of_ne (ne hu)
    · cases h
  case h_3 | h_7 =>
    unfold readNext at h
    repeat' split at h
    all_goals cases h
    all_goals rfl
  case h_12 | h_13 =>
    try split at h
    all_goals
      obtain ⟨rfl, -, -⟩ := Option.some.inj h
      try split
      all_goals rfl
  case h_14 now s u rest =>
    split at h
    · rename_i hu
      obtain ⟨rfl, -, -⟩ := Option.some.inj h
      exact removeIf_channels_of_ne (ne hu)
    · cases h
  all_goals
    try split at h
    all_goals cases h
  all_goals rfl

theorem stuck_of_not_writable {v : UserId} (hv : ¬ x.shared.Writable X v) (j : ℕ) :
    (system X).next x (.call j (.connect v)) = none ∧
    (∀ ch pos, x.calls j = .connected v ch pos → (system X).next x (.call j .leave) = none) ∧
    ∀ ch, x.calls j = .ended v ch → (system X).next x (.call j .ok) = none := by
  refine ⟨?_, ?_, ?_⟩
  · simp only [System.next, system, Option.map_eq_none_iff]
    cases x.calls j with
    | idle => simp [exec, hv]
    | removing now s rest => cases rest <;> rfl
    | _ => rfl
  · intro ch pos hj
    simp [System.next, system, hj, exec, hv]
  · intro ch hj
    simp [System.next, system, hj, exec, hv]

theorem Effect.senderOf_kept (hE : Effect X w c w' l) {v : UserId} {ch : ChannelId}
    (hc : ∀ now s u rest, c = .removing now s (u :: rest) → ¬ w.Writable X u)
    (hw : ∀ now s u rest, c = .removing now s (u :: rest) → w.Writable X u)
    (h : w.senderOf v = some ch) : w'.senderOf v = some ch := by
  cases hE with
  | quiet hch => rwa [Hub.senderOf, hch]
  | opens u =>
    rw [subscribe_senderOf]
    split
    · rename_i hvu
      subst hvu
      obtain ⟨e, he, hes⟩ := Option.map_eq_some_iff.mp h
      simp [subscribe, he, hes]
    · exact h
  | drops u => rwa [unsubscribe_senderOf]
  | removes now s u rest => exact absurd (hw now s u rest rfl) (hc now s u rest rfl)

theorem writable_of_exec {now s : ℕ} {u : UserId} {rest : List UserId}
    (h : exec X i a w (.removing now s (u :: rest)) = some (w', l, es)) : w.Writable X u := by
  cases a with
  | ok =>
    simp only [exec] at h
    split at h
    · assumption
    · cases h
  | connect | publish | sweep | leave | fail => cases h

theorem senderOf_of_next (h : Locked X x.shared x.calls) (hn : (system X).next x b = some y)
    {v : UserId} {ch : ChannelId} (hv : x.shared.senderOf v = some ch) :
    y.shared.senderOf v = some ch := by
  cases b with
  | call i a =>
    obtain ⟨w, l, es, he, rfl⟩ := System.next_call_eq_some.mp hn
    refine (exec_effect he).senderOf_kept ?_ ?_ hv
    · exact fun now s u rest hi => not_writable h hi
    · intro now s u rest hi
      change exec X i a x.shared (x.calls i) = _ at he
      rw [hi] at he
      exact writable_of_exec he
  | env e =>
    obtain ⟨w, hw, rfl⟩ := System.next_env_eq_some.mp hn
    obtain rfl := Option.some.inj hw
    exact hv

/-- Where a pass has found something to remove, it stays, and so do the entries of its shard. -/
structure Stuck (X : Platform) (x : Config) (i s : ℕ) (z : Config) : Prop where
  locked : Locked X z.shared z.calls
  call : z.calls i = x.calls i
  channels : ∀ v, X.shard v = s → z.shared.channels v = x.shared.channels v

theorem Stuck.next {i now s : ℕ} {u : UserId} {rest : List UserId} (hX : X.iterLocks = true)
    (hi : x.calls i = .removing now s (u :: rest)) (h : Stuck X x i s y)
    (hn : (system X).next y b = some z) : Stuck X x i s z := by
  have hyi : y.calls i = .removing now s (u :: rest) := h.call.trans hi
  have hshard : X.shard u = s := h.locked.rest i now s _ hyi u List.mem_cons_self
  have hblocked : ¬ y.shared.Writable X u := not_writable h.locked hyi
  cases b with
  | call j a =>
    obtain ⟨w, l, es, he, rfl⟩ := System.next_call_eq_some.mp hn
    change exec X j a y.shared (y.calls j) = _ at he
    have hji : i ≠ j := by
      rintro rfl
      rw [hyi] at he
      exact hblocked (writable_of_exec he)
    refine ⟨h.locked.next hX hn, (Function.update_of_ne hji ..).trans h.call, ?_⟩
    intro v hv
    refine (channels_of_exec he ?_).trans (h.channels v hv)
    simpa [Hub.Writable, hv, hshard] using hblocked
  | env e =>
    obtain ⟨w, hw, rfl⟩ := System.next_env_eq_some.mp hn
    obtain rfl := Option.some.inj hw
    exact ⟨h.locked.next hX hn, h.call, h.channels⟩

theorem initial_locked (t : ℕ) : Locked X (initial t).shared (initial t).calls where
  nodup := by simp [initial]
  readers := by simp [initial, Call.inShard]
  rest := by simp [initial]

theorem locked_of_reachable (hX : X.iterLocks = true) {t : ℕ}
    (h : (system X).Reachable (initial t) x) : Locked X x.shared x.calls ∧ x.shared.Listed :=
  h.induction (I := fun x => Locked X x.shared x.calls ∧ x.shared.Listed)
    (fun _ _ _ hx hn => ⟨hx.1.next hX hn, Listed.next hx.2 hn⟩)
    ⟨initial_locked t, by simp [initial, Hub.Listed]⟩

end Runs

/-- With iterators that lock, no run removes a channel. A clean-up pass that comes to a shard with a
channel unused for an hour never ends, and no user of the shard is subscribed or unsubscribed again;
at any other shard it goes on to the next. -/
theorem sweep_stuck (X : Platform) (hX : X.iterLocks = true) (t : ℕ) (x : Config)
    (h : (system X).Reachable (initial t) x) :
    (∀ z, (system X).Reachable x z → ∀ u ch,
      x.shared.senderOf u = some ch → z.shared.senderOf u = some ch) ∧
    ∀ y i now s, x.calls i = .sweeping now s → s < X.shards →
      (system X).next x (.call i .ok) = some y →
      ((∃ u e, X.shard u = s ∧ x.shared.channels u = some e ∧ e.subscriberCount = 0 ∧
          ∃ emptyAt, e.lastEmptyAt = some emptyAt ∧ channelTtl ≤ now - emptyAt) →
        ∀ z, (system X).Reachable y z → (∀ a, (system X).next z (.call i a) = none) ∧
          ∀ v, X.shard v = s → z.shared.channels v = x.shared.channels v ∧
            ∀ j, (system X).next z (.call j (.connect v)) = none ∧
              (∀ ch pos, z.calls j = .connected v ch pos →
                (system X).next z (.call j .leave) = none) ∧
              ∀ ch, z.calls j = .ended v ch → (system X).next z (.call j .ok) = none) ∧
      (¬ (∃ u e, X.shard u = s ∧ x.shared.channels u = some e ∧ e.subscriberCount = 0 ∧
          ∃ emptyAt, e.lastEmptyAt = some emptyAt ∧ channelTtl ≤ now - emptyAt) →
        ∃ z, (system X).next y (.call i .ok) = some z ∧ z.calls i = .sweeping now (s + 1)) := by
  obtain ⟨hlocked, hlisted⟩ := locked_of_reachable hX h
  constructor
  · intro z hz u ch hu
    have hkept := hz.induction
      (I := fun z => Locked X z.shared z.calls ∧ z.shared.senderOf u = some ch)
      (fun _ _ _ hx hn => ⟨hx.1.next hX hn, senderOf_of_next hx.1 hn hx.2⟩) ⟨hlocked, hu⟩
    exact hkept.2
  intro y i now s hi hs hn
  have hy : y.calls i = .removing now s (toRemove X x.shared now s) ∧
      y.shared.channels = x.shared.channels := by
    obtain ⟨w, l, es, he, rfl⟩ := System.next_call_eq_some.mp hn
    simp only [system, hi, exec, if_pos hs, if_pos hX] at he
    obtain ⟨rfl, rfl, -⟩ := Option.some.inj he
    simp [lockShard]
  have hmem {u : UserId} : u ∈ toRemove X x.shared now s ↔
      X.shard u = s ∧ ∃ e, x.shared.channels u = some e ∧ e.expired now = true := by
    rw [toRemove, List.mem_filter, hlisted.2, decide_eq_true_eq, Option.any_eq_true]
    constructor
    · exact And.right
    · rintro ⟨hu, e, he, hexp⟩
      exact ⟨by simp [he], hu, e, he, hexp⟩
  have hexpired {e : ChannelEntry} : e.expired now = true ↔ e.subscriberCount = 0 ∧
      ∃ emptyAt, e.lastEmptyAt = some emptyAt ∧ channelTtl ≤ now - emptyAt := by
    simp [ChannelEntry.expired, Option.any_eq_true]
  constructor
  · rintro ⟨u, e, hu, he, hexp⟩ z hz
    have hin := hmem.mpr ⟨hu, e, he, hexpired.mpr hexp⟩
    obtain ⟨u', rest, hrest⟩ := List.exists_cons_of_ne_nil (List.ne_nil_of_mem hin)
    rw [hrest] at hy
    have hstuck : Stuck X y i s z :=
      hz.induction (I := Stuck X y i s) (fun _ _ _ hx hn => hx.next hX hy.1 hn)
        ⟨hlocked.next hX hn, rfl, fun _ _ => rfl⟩
    have hzi := hstuck.call.trans hy.1
    have hblocked := not_writable hstuck.locked hzi
    have hshard : X.shard u' = s := hstuck.locked.rest i now s _ hzi u' List.mem_cons_self
    constructor
    · intro a
      cases a with
      | ok => simp [System.next, system, hzi, exec, hblocked]
      | connect | publish | sweep | leave | fail => simp [System.next, system, hzi, exec]
    · intro v hv
      refine ⟨(hstuck.channels v hv).trans (congrFun hy.2 v), ?_⟩
      apply stuck_of_not_writable
      simpa [Hub.Writable, hv, hshard] using hblocked
  · intro hnone
    have hnil : toRemove X x.shared now s = [] := by
      apply List.eq_nil_iff_forall_not_mem.mpr
      intro u hin
      obtain ⟨hu, e, he, hexp⟩ := hmem.mp hin
      exact hnone ⟨u, e, hu, he, hexpired.mp hexp⟩
    rw [hnil] at hy
    simp [System.next, system, hy.1, exec]

/-- A socket comes and goes, and an hour later a pass begins. -/
def plainIdle : List (Act Input Env) :=
  [.call 0 (.connect 7), .call 0 .ok, .call 0 .leave, .env (.tick (hours 1)), .call 1 .sweep]

theorem plainIdle_calls : ((system Platform.plain).run (initial 0) plainIdle).map
    (fun c => (c.calls 1, c.shared.channels 7)) =
      some (.sweeping (hours 1) 0, some ⟨0, 0, some 0⟩) := by
  decide

theorem sweep_stuck_plain : ∃ x y, (system Platform.plain).Reachable (initial 0) x ∧
    (system Platform.plain).next x (.call 1 .ok) = some y ∧
    ∀ z, (system Platform.plain).Reachable y z →
      ∀ j, (system Platform.plain).next z (.call j (.connect 7)) = none := by
  obtain ⟨x, hx, hcalls⟩ := Option.map_eq_some_iff.mp plainIdle_calls
  obtain ⟨hi, hchannel⟩ := Prod.mk.inj hcalls
  obtain ⟨y, hy⟩ : ∃ y, (system Platform.plain).next x (.call 1 .ok) = some y := by
    refine ⟨⟨lockShard x.shared 1 0, Function.update x.calls 1
      (.removing (hours 1) 0 (toRemove Platform.plain x.shared (hours 1) 0)), x.log ++ []⟩, ?_⟩
    simp [System.next, system, hi, exec, Platform.plain]
  have hreach : (system Platform.plain).Reachable (initial 0) x := ⟨_, hx⟩
  refine ⟨x, y, hreach, hy, fun z hz j => ?_⟩
  have hpass := (sweep_stuck Platform.plain rfl 0 x hreach).2 y 1 (hours 1) 0 hi (by decide) hy
  have hstuck := hpass.1 ⟨7, _, rfl, hchannel, rfl, 0, rfl, by decide⟩ z hz
  exact ((hstuck.2 7 rfl).2 j).1

end Thcdb.Notifications
