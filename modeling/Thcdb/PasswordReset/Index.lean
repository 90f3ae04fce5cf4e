import Thcdb.PasswordReset.GuessBudget
import Thcdb.Redis.Index

namespace Thcdb.PasswordReset
open Auth Redis Interleaving

variable {P : Type} {X : Platform P}

/-- The reset key hash under which a stored payload is listed. -/
def Platform.listing (X : Platform P) (p : P) : Option String := (X.fromStr p).bind (·.indexKey)

def Coherent (X : Platform P) (s : Store P) : Prop := s.state.IndexedBy s.index X.listing

theorem nameAt_listing (s : Store P) (u : UserId) :
    s.state.nameAt X.listing u = (s.live X.toPayloadCodec u).bind (·.indexKey) := by
  rw [Keyspace.nameAt, Store.live, Option.bind_assoc]
  rfl

theorem listing_of_fromStr {p : P} {st : PasswordResetState} (h : X.fromStr p = some st) :
    X.listing p = st.indexKey := by
  simp [Platform.listing, h]

/-- What the save script leaves in the index. -/
theorem setNextIndex_delPreviousIndex (index : Keyspace String UserId) (now ttl : ℕ) (u : UserId)
    (previous next : Option String) (k : String) :
    setNextIndex (delPreviousIndex index previous next) now next u ttl k =
      if next = some k then some ⟨u, millis now + ttl * 1000⟩
      else if previous = some k then none else index k := by
  have hdel : next ≠ some k → delPreviousIndex index previous next k =
      if previous = some k then none else index k := by
    intro hne
    cases previous with
    | none => rfl
    | some h =>
      by_cases hk : h = k
      · subst hk
        simp [delPreviousIndex, hne.symm]
      · by_cases hn : some h = next
        · simp [delPreviousIndex, hn, hne]
        · have hkh : k ≠ h := fun heq => hk heq.symm
          simp [delPreviousIndex, hn, hk, hkh]
  cases next with
  | none => simpa [setNextIndex] using hdel
  | some n =>
    by_cases hn : n = k
    · subst hn
      simp [setNextIndex]
    · have hkn : k ≠ n := fun heq => hn heq.symm
      simpa [setNextIndex, hn, hkn] using hdel (by simpa using hn)

/-- The secret a caller is about to store is the one it has in hand. -/
theorem Caller.hand_secret (k : Caller P) : (k.hand X).secret = some (k.next X).secret := by
  cases k <;> rfl

theorem secret_of_indexKey {st : PasswordResetState} {k : String} (h : st.indexKey = some k) :
    st.secret = .key k := by
  cases st with
  | AwaitingCode => cases h
  | AwaitingPassword k' e =>
    obtain rfl := Option.some.inj h
    rfl

variable [DecidableEq P] {c d : Config P} {i : ℕ}

omit [DecidableEq P] in
/-- No user is listed under the key that a caller is about to store. -/
theorem nameAt_ne_next (ht : (Ledger.of X c).Tokens) {k : Caller P} {ttl : ℕ}
    (hc : c.calls i = .eval k ttl) {h : String} (hk : (k.next X).indexKey = some h) (u : UserId) :
    c.shared.store.state.nameAt X.listing u ≠ some h := by
  intro hu
  rw [nameAt_listing] at hu
  obtain ⟨st, hlive, hst⟩ := Option.bind_eq_some_iff.mp hu
  have hleft : (Ledger.of X c).tokens (.inl u) = some (.key h) := by
    show (c.shared.store.live X.toPayloadCodec u).map (·.secret) = _
    rw [hlive, Option.map_some, secret_of_indexKey hst]
  have hright : (Ledger.of X c).tokens (.inr i) = some (.key h) := by
    show ((c.calls i).hand X).bind (·.secret) = _
    rw [hc]
    show (k.hand X).secret = _
    rw [k.hand_secret, secret_of_indexKey hk]
  exact absurd (ht.linear _ _ _ hleft hright) Sum.inl_ne_inr

theorem Coherent.save (h : Coherent X c.shared.store) (hc : Wf X c)
    (ht : (Ledger.of X c).Tokens) {k : Caller P} {ttl : ℕ} (hk : c.calls i = .eval k ttl) :
    Coherent X (savePasswordResetStateIfMatches c.shared.store c.shared.clock
      (k.saveArgs X ttl)).1 := by
  have hwf : k.Wf X c.shared.clock := by
    have hcall := hc.calls i
    rw [hk] at hcall
    exact hcall.1
  by_cases hg : c.shared.store.state.get k.userId = k.previous.map (·.payload)
  · rw [save_of_eq (a := k.saveArgs X ttl) hg]
    have hlisting : X.listing (X.toString (k.next X)) = (k.next X).indexKey :=
      listing_of_fromStr (X.fromStr_toString _)
    have hprevious : c.shared.store.state.nameAt X.listing k.userId =
        k.previous.bind (·.state.indexKey) := by
      rw [nameAt_listing, live_of_matches hwf hg, Option.bind_map]
      rfl
    refine Keyspace.IndexedBy.setEx h ?_ ?_
    · -- the key about to be listed is in the caller's hand, so nobody is listed under it
      intro n u hn hne
      exact nameAt_ne_next ht hk (hlisting.symm.trans hn) u
    · intro n
      show setNextIndex _ _ _ _ _ n = if X.listing (X.toString (k.next X)) = some n then _ else _
      rw [setNextIndex_delPreviousIndex, hlisting]
      show _ = if _ then _ else if c.shared.store.state.nameAt X.listing k.userId = some n then _
        else _
      rw [hprevious]
      rfl
  · rw [save_of_ne (a := k.saveArgs X ttl) hg]
    exact h

omit [DecidableEq P] in
/-- An index key may go with the state that it lists, and stays when the state lists none. -/
theorem Coherent.del {s : Store P} (h : Coherent X s) {u : UserId} {st : PasswordResetState}
    (hu : s.live X.toPayloadCodec u = some st) :
    Coherent X ⟨s.state.del u, match st.indexKey with | some k => s.index.del k | none => s.index⟩ := by
  refine Keyspace.IndexedBy.del h ?_
  intro n
  rw [nameAt_listing, hu, Option.bind_some]
  cases hk : st.indexKey with
  | none => simp
  | some k =>
    by_cases hn : k = n
    · subst hn
      simp
    · have hnk : n ≠ k := fun heq => hn heq.symm
      simp [hn, hnk]

theorem Coherent.increment {s : Store P} (h : Coherent X s) {u : UserId} {p : P} {now : ℕ}
    {codeHash : String} {e t n : ℕ} (hp : X.fromStr p = some (.AwaitingCode codeHash e t n)) :
    Coherent X (incrementFailedAttemptsIfMatches X.toPayloadCodec s now u p).1 := by
  rcases increment_cases X.toPayloadCodec hp with hr | ⟨hg, hr⟩ | ⟨hg, -, hr⟩
  · rw [hr]
    exact h
  · rw [hr]
    exact h.del (Store.live_of_get hg hp)
  · rw [hr]
    have hname : s.state.nameAt X.listing u = none := by
      rw [nameAt_listing, Store.live_of_get hg hp]
      rfl
    have hnext : X.listing (X.encode (.AwaitingCode codeHash e t (n + 1))) = none :=
      listing_of_fromStr (X.fromStr_encode _)
    refine Keyspace.IndexedBy.setEx h ?_ ?_
    · simp [hnext]
    · simp [hnext, hname]

omit [DecidableEq P] in
/-- With a coherent index the consume script never meets an index key without its state. -/
theorem Coherent.consume {s : Store P} (h : Coherent X s) (k : String) :
    Coherent X (consumePasswordResetKey X.toPayloadCodec s k).1 := by
  rcases consume_cases X.toPayloadCodec with hr | ⟨u, hi, hmiss, -⟩ | ⟨u, p, e, hi, hg, hd, hr⟩
  · rw [hr]
    exact h
  · -- an index key without its state contradicts the invariant
    obtain ⟨p, hp, hk⟩ := Option.bind_eq_some_iff.mp (h.get_iff.mp hi)
    obtain ⟨st, hst, hkey⟩ := Option.bind_eq_some_iff.mp hk
    cases st with
    | AwaitingCode => cases hkey
    | AwaitingPassword k' e =>
      obtain rfl := Option.some.inj hkey
      exact absurd (X.decode_of_fromStr hst) (hmiss p e hp)
  · rw [hr]
    obtain ⟨q, hq, hk⟩ := Option.bind_eq_some_iff.mp (h.get_iff.mp hi)
    obtain rfl := Option.some.inj (hg.symm.trans hq)
    obtain ⟨st, hst, hkey⟩ := Option.bind_eq_some_iff.mp hk
    have hdel := h.del (Store.live_of_get hg hst)
    rw [hkey] at hdel
    exact hdel

theorem Coherent.next (h : Coherent X c.shared.store) (hc : Wf X c)
    (ht : (Ledger.of X c).Tokens) {a : Act Input Env} (hn : (system X).next c a = some d) :
    Coherent X d.shared.store := by
  cases a with
  | call i a =>
    obtain ⟨w, l, es, he, rfl⟩ := System.next_call_eq_some.mp hn
    have hw := exec_writes he
    have hcall := hc.calls i
    show Coherent X w.store
    generalize hl : c.calls i = l at hw hcall
    generalize w.store = s at hw
    cases hw with
    | keep => exact h
    | save k ttl => exact h.save hc ht hl
    | clear u current =>
      by_cases hg : c.shared.store.state.get u = some current.payload
      · rw [clear_of_eq hg]
        exact h.del (Store.live_of_get hg hcall.decodes)
      · rw [clear_of_ne hg]
        exact h
    | increment user submitted state codeHash =>
      obtain ⟨hwf, e, t, n, hst, -⟩ := hcall
      exact h.increment (hst ▸ hwf.decodes)
    | consume k p => exact h.consume k
  | env b =>
    obtain ⟨s, hs, rfl⟩ := System.next_env_eq_some.mp hn
    cases b with
    | tick n =>
      obtain rfl := Option.some.inj hs
      exact Keyspace.IndexedBy.expire h _
    | writeUsers users =>
      obtain rfl := Option.some.inj hs
      exact h

theorem coherent_of_reachable {t : ℕ} {users : List UserRow}
    (h : (system X).Reachable (initial t users) c) : Coherent X c.shared.store := by
  obtain ⟨-, -, hcoh⟩ := h.induction
    (I := fun x => Wf X x ∧ (Ledger.of X x).Reachable ∧ Coherent X x.shared.store)
    (fun x a y hx hn => ⟨(hx.1.next hn).1, hx.2.1.step (hx.1.next hn).2,
      hx.2.2.next hx.1 hx.2.1.inv.tokens hn⟩)
    ⟨initial_wf t users, .start (initial_start t users), Keyspace.IndexedBy.empty⟩
  exact hcoh

/-- In every reachable store an index key maps to a user exactly if that user's state awaits a
password with this key, and then both keys expire together. -/
theorem index_coherent (X : Platform P) (t : ℕ) (users : List UserRow) (c : Config P)
    (h : (system X).Reachable (initial t users) c) (resetKeyHash : String) (u : UserId) :
    (c.shared.store.index.get resetKeyHash = some u ↔
      ∃ exp, c.shared.store.live X.toPayloadCodec u =
        some (.AwaitingPassword resetKeyHash exp)) ∧
    ∀ e e', c.shared.store.index resetKeyHash = some e → e.value = u →
      c.shared.store.state u = some e' → e.expireAt = e'.expireAt := by
  have hcoh := coherent_of_reachable h
  constructor
  · rw [Keyspace.IndexedBy.get_iff hcoh, nameAt_listing]
    constructor
    · intro hu
      obtain ⟨st, hlive, hk⟩ := Option.bind_eq_some_iff.mp hu
      cases st with
      | AwaitingCode => cases hk
      | AwaitingPassword k exp =>
        obtain rfl := Option.some.inj hk
        exact ⟨exp, hlive⟩
    · rintro ⟨exp, hlive⟩
      rw [hlive]
      rfl
  · rintro ⟨v, t⟩ e' hi rfl hu
    obtain ⟨p, hp, -⟩ := (hcoh resetKeyHash v t).mp hi
    obtain rfl := Option.some.inj (hp.symm.trans hu)
    rfl

theorem plainGuesses_index :
    ((system Platform.plain).run (initial 0 [plainUser]) plainGuesses).map
      (fun c => c.shared.store.index.get "") = some (some 7) := by
  decide

theorem index_coherent_plain : ∃ c,
    (system Platform.plain).Reachable (initial 0 [plainUser]) c ∧
    ∃ exp, c.shared.store.live Platform.plain.toPayloadCodec 7 =
      some (.AwaitingPassword "" exp) := by
  obtain ⟨c, hc, hindex⟩ := Option.map_eq_some_iff.mp plainGuesses_index
  have hi := index_coherent Platform.plain 0 [plainUser] c ⟨_, hc⟩ "" 7
  exact ⟨c, ⟨_, hc⟩, hi.1.mp hindex⟩

end Thcdb.PasswordReset
