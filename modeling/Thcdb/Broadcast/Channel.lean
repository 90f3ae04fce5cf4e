import Mathlib.Data.List.Basic

namespace Broadcast

variable {α : Type*}

/-- What a receiver at position `pos` of the stream has not read yet. -/
def unread (sent : List α) (pos : ℕ) : List α := sent.drop pos

/-- What a receiver gets next, and where it stands then. -/
inductive Recv (α : Type*)
  | caughtUp
  | lagged (pos : ℕ)
  | message (x : α) (pos : ℕ)

def recv (capacity : ℕ) (sent : List α) (pos : ℕ) : Recv α :=
  if capacity < sent.length - pos then .lagged (sent.length - capacity)
  else match sent[pos]? with
    | none => .caughtUp
    | some x => .message x (pos + 1)

variable {capacity pos pos' : ℕ} {sent : List α} {x : α}

theorem unread_send (h : pos ≤ sent.length) :
    unread (sent ++ [x]) pos = unread sent pos ++ [x] := List.drop_append_of_le_length h

theorem recv_eq_message (h : recv capacity sent pos = .message x pos') :
    pos' = pos + 1 ∧ pos' ≤ sent.length ∧ unread sent pos = x :: unread sent pos' := by
  unfold recv at h
  split at h
  · cases h
  · split at h
    · cases h
    · rename_i y hy
      obtain ⟨rfl, rfl⟩ := Recv.message.inj h
      obtain ⟨hpos, rfl⟩ := List.getElem?_eq_some_iff.mp hy
      exact ⟨rfl, hpos, List.drop_eq_getElem_cons hpos⟩

/-- A receiver that lags skips the oldest messages, and has then as many left as the buffer
holds. -/
theorem recv_eq_lagged (h : recv capacity sent pos = .lagged pos') :
    capacity < (unread sent pos).length ∧ pos' ≤ sent.length ∧
      unread sent pos' <:+ unread sent pos ∧ (unread sent pos').length = capacity := by
  unfold recv at h
  split at h
  · rename_i hlag
    obtain rfl := Recv.lagged.inj h
    refine ⟨by simpa [unread] using hlag, Nat.sub_le .., ?_, ?_⟩
    · exact List.drop_suffix_drop_left sent (by omega)
    · rw [unread, List.length_drop]
      omega
  · split at h <;> cases h

/-- A receiver waits when it has read everything, and only then. -/
theorem recv_eq_caughtUp : recv capacity sent pos = .caughtUp ↔ unread sent pos = [] := by
  rw [unread, List.drop_eq_nil_iff, ← List.getElem?_eq_none_iff]
  unfold recv
  split
  · rename_i hlag
    have hpos : pos < sent.length := by omega
    simp [hpos]
  · cases sent[pos]? <;> simp

end Broadcast
