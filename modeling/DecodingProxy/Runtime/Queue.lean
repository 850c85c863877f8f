import DecodingProxy.Runtime.ArrayPool

/-!
# `Queue<T>`

A queue keeps its items in an array, so `Enqueue` throws when there are as many as the longest
array holds.
-/

namespace DecodingProxy.Runtime

variable {φ : Type*}

def enqueue (queue : List φ) (item : φ) : Except Fault (List φ) :=
  if queue.length < arrayMaxLength then .ok (queue ++ [item]) else .error (.raised .outOfMemory)

def dequeue : List φ → Except Fault (φ × List φ)
  | [] => .error (.raised .invalidOperation)
  | item :: queue => .ok (item, queue)

theorem enqueue_ok_iff {queue queue' : List φ} {item : φ} :
    enqueue queue item = .ok queue' ↔
      queue.length < arrayMaxLength ∧ queue' = queue ++ [item] := by
  unfold enqueue
  split_ifs with h
  · simp [h, eq_comm]
  · simp [h]

end DecodingProxy.Runtime
