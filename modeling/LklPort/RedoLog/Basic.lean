import Mathlib.Data.List.Basic

/-!
# Redo logs

A transaction of a redo log has copies of what it writes, in order, and may revoke keys: the copies
of a revoked key in this transaction and in earlier ones are not written. So a key ends up with its
last copy that is not revoked by the same transaction or by a later one.
-/

namespace RedoLog

variable {κ β : Type*} [DecidableEq κ]

structure Txn (κ β : Type*) where
  writes : List (κ × β)
  revokes : List κ

/-- One of the transactions revokes the key. -/
def revoked (ts : List (Txn κ β)) (k : κ) : Bool := ts.any fun t => t.revokes.contains k

/-- The copies, in the order of the log, that neither their transaction nor a later one revokes. -/
def live : List (Txn κ β) → List (κ × β)
  | [] => []
  | t :: ts => t.writes.filter (fun w => !revoked (t :: ts) w.1) ++ live ts

/-- The last copy of a key in a list. -/
def lastOf (ws : List (κ × β)) (k : κ) : Option β := (ws.filter (·.1 = k)).getLast?.map (·.2)

/-- The last copy of a key that is not revoked. -/
def lastCopy (ts : List (Txn κ β)) (k : κ) : Option β := lastOf (live ts) k

/-- The copies are written one after the other. -/
def putAll (ws : List (κ × β)) (store : κ → β) : κ → β :=
  ws.foldl (fun store w => Function.update store w.1 w.2) store

variable {ws ws' : List (κ × β)} {store : κ → β} {k : κ}

lemma putAll_append : putAll (ws ++ ws') store = putAll ws' (putAll ws store) := List.foldl_append

lemma putAll_cons {w : κ × β} :
    putAll (w :: ws) store = putAll ws (Function.update store w.1 w.2) := rfl

/-- A key ends up with its last copy. -/
theorem putAll_apply : putAll ws store k = (lastOf ws k).getD (store k) := by
  induction ws generalizing store with
  | nil => rfl
  | cons w ws ih =>
    rw [putAll_cons, ih, lastOf, lastOf, List.filter_cons]
    by_cases hw : w.1 = k
    · subst hw
      cases hrest : (ws.filter (·.1 = w.1)).getLast? with
      | none | some => simp [List.getLast?_cons, hrest]
    · rw [Function.update_of_ne (Ne.symm hw)]
      simp [hw]

lemma revoked_eq_true_iff {ts : List (Txn κ β)} :
    revoked ts k = true ↔ ∃ t ∈ ts, k ∈ t.revokes := by
  simp [revoked]

end RedoLog
