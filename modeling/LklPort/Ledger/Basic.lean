import Mathlib.Tactic.Common

/-!
# Ledgers of jobs

A ledger keeps the jobs that a component was given. A job belongs to a key, and a key has at most
one job at a time. A job ends by being done or by being dropped, and a ledger says of each job how
it ended, in the order of the jobs. What was done without a job is noted too, so that a ledger can
say that there was no such thing.
-/

/-- What was done for a key, the job that it ended, and a note of the component on it. -/
structure Ledger.Done (K R : Type*) where
  key : K
  job : Option ℕ
  note : R

/-- Jobs of type `D` for the keys in `K`, with notes in `R` for those that are done. -/
structure Ledger (K D R : Type*) where
  /-- The jobs in the order in which they came. A job is named by its place here. -/
  jobs : List (K × D)
  /-- The jobs that have not ended. -/
  current : K → Option (ℕ × D)
  done : List (Ledger.Done K R)
  dropped : List ℕ

namespace Ledger

open Function

variable {K D R : Type*}

def empty : Ledger K D R := ⟨[], fun _ => none, [], []⟩

variable [DecidableEq K]

/-- The key is given a job. -/
def add (l : Ledger K D R) (k : K) (d : D) : Ledger K D R :=
  { l with
    jobs := l.jobs ++ [(k, d)]
    current := update l.current k (some (l.jobs.length, d)) }

/-- The job of the key is dropped, if it has one. -/
def drop (l : Ledger K D R) (k : K) : Ledger K D R :=
  { l with
    current := update l.current k none
    dropped := ((l.current k).map Prod.fst).toList ++ l.dropped }

/-- Something is done for the key. -/
def finish (l : Ledger K D R) (k : K) (r : R) : Ledger K D R :=
  { l with
    current := update l.current k none
    done := ⟨k, (l.current k).map Prod.fst, r⟩ :: l.done }

omit [DecidableEq K] in
/-- The jobs that were done. -/
def doneJobs (l : Ledger K D R) : List (Option ℕ) := l.done.map Done.job

/-- Each job has ended in one way or is current. -/
structure Valid (l : Ledger K D R) : Prop where
  current : ∀ k i d, l.current k = some (i, d) → l.jobs[i]? = some (k, d) ∧ i ∉ l.dropped ∧
    some i ∉ l.doneJobs
  ended : ∀ i k d, l.jobs[i]? = some (k, d) → i ∈ l.dropped ∨ some i ∈ l.doneJobs ∨
    l.current k = some (i, d)
  done : ∀ e ∈ l.done, ∃ i d, e.job = some i ∧ l.jobs[i]? = some (e.key, d)
  once : l.doneJobs.Nodup
  dropped : ∀ i ∈ l.dropped, i < l.jobs.length ∧ some i ∉ l.doneJobs

variable {l : Ledger K D R} {k : K} {d : D} {r : R}

omit [DecidableEq K] in
lemma valid_empty : (empty : Ledger K D R).Valid := by
  constructor <;> simp [empty, doneJobs]

omit [DecidableEq K] in
lemma Valid.lt_of_done {i : ℕ} (h : l.Valid) (hi : some i ∈ l.doneJobs) : i < l.jobs.length := by
  obtain ⟨e, he, hjob⟩ := List.mem_map.1 hi
  obtain ⟨i', d, hi', hget⟩ := h.done e he
  rw [hjob] at hi'
  cases hi'
  exact (List.getElem?_eq_some_iff.1 hget).1

lemma jobs_add {i : ℕ} {j : K × D} (hi : l.jobs[i]? = some j) : (l.add k d).jobs[i]? = some j := by
  rw [add, List.getElem?_append_left (List.getElem?_eq_some_iff.1 hi).1]
  exact hi

lemma Valid.add (h : l.Valid) (hk : l.current k = none) : (l.add k d).Valid := by
  constructor
  · intro k' i d' hcurrent
    by_cases hkk : k' = k
    · subst hkk
      simp only [Ledger.add, update_self, Option.some.injEq, Prod.mk.injEq] at hcurrent
      obtain ⟨rfl, rfl⟩ := hcurrent
      refine ⟨by simp [Ledger.add], fun hdrop => ?_, fun hdone => ?_⟩
      · exact absurd (h.dropped _ hdrop).1 (Nat.lt_irrefl _)
      · exact absurd (h.lt_of_done hdone) (Nat.lt_irrefl _)
    · simp only [Ledger.add, update_of_ne hkk] at hcurrent
      obtain ⟨hget, hrest⟩ := h.current k' i d' hcurrent
      exact ⟨jobs_add hget, hrest⟩
  · intro i k' d' hget
    simp only [Ledger.add] at hget
    by_cases hi : i < l.jobs.length
    · rw [List.getElem?_append_left hi] at hget
      obtain hdrop | hdone | hcurrent := h.ended i k' d' hget
      · exact .inl hdrop
      · exact .inr (.inl hdone)
      · have hkk : k' ≠ k := by
          rintro rfl
          simp [hk] at hcurrent
        exact .inr (.inr (by simpa [Ledger.add, hkk] using hcurrent))
    · rw [List.getElem?_append_right (by omega), List.getElem?_singleton] at hget
      split_ifs at hget with hzero
      cases hget
      refine .inr (.inr ?_)
      simp only [Ledger.add, update_self, Option.some.injEq, Prod.mk.injEq, and_true]
      omega
  · intro e he
    obtain ⟨i, d', hjob, hget⟩ := h.done e he
    exact ⟨i, d', hjob, jobs_add hget⟩
  · exact h.once
  · intro i hi
    obtain ⟨hlt, hdone⟩ := h.dropped i hi
    exact ⟨by simp only [Ledger.add, List.length_append]; omega, hdone⟩

lemma Valid.drop (h : l.Valid) : (l.drop k).Valid := by
  have hdrop : ∀ i, i ∈ (l.drop k).dropped ↔ (∃ d, l.current k = some (i, d)) ∨ i ∈ l.dropped := by
    intro i
    simp [Ledger.drop]
  constructor
  · intro k' i d' hcurrent
    by_cases hkk : k' = k
    · subst hkk
      simp [Ledger.drop] at hcurrent
    · simp only [Ledger.drop, update_of_ne hkk] at hcurrent
      obtain ⟨hget, hnot, hdone⟩ := h.current k' i d' hcurrent
      refine ⟨hget, fun hi => ?_, hdone⟩
      obtain ⟨d'', hd''⟩ | hi := (hdrop i).1 hi
      · have := (h.current k i d'' hd'').1
        rw [hget] at this
        cases this
        exact hkk rfl
      · exact hnot hi
  · intro i k' d' hget
    obtain hi | hi | hcurrent := h.ended i k' d' hget
    · exact .inl ((hdrop i).2 (.inr hi))
    · exact .inr (.inl hi)
    · by_cases hkk : k' = k
      · subst hkk
        exact .inl ((hdrop i).2 (.inl ⟨d', hcurrent⟩))
      · exact .inr (.inr (by simpa [Ledger.drop, hkk] using hcurrent))
  · exact h.done
  · exact h.once
  · intro i hi
    obtain ⟨d', hd'⟩ | hi := (hdrop i).1 hi
    · obtain ⟨hget, -, hdone⟩ := h.current k i d' hd'
      exact ⟨(List.getElem?_eq_some_iff.1 hget).1, hdone⟩
    · exact h.dropped i hi

lemma Valid.finish {i : ℕ} (h : l.Valid) (hk : l.current k = some (i, d)) :
    (l.finish k r).Valid := by
  obtain ⟨hget, hnot, hdone⟩ := h.current k i d hk
  have hjobs : (l.finish k r).doneJobs = some i :: l.doneJobs := by
    simp [Ledger.finish, doneJobs, hk]
  constructor
  · intro k' i' d' hcurrent
    by_cases hkk : k' = k
    · subst hkk
      simp [Ledger.finish] at hcurrent
    · simp only [Ledger.finish, update_of_ne hkk] at hcurrent
      obtain ⟨hget', hnot', hdone'⟩ := h.current k' i' d' hcurrent
      refine ⟨hget', hnot', fun hi => ?_⟩
      rw [hjobs] at hi
      obtain hi | hi := List.mem_cons.1 hi
      · cases hi
        rw [hget] at hget'
        cases hget'
        exact hkk rfl
      · exact hdone' hi
  · intro i' k' d' hget'
    rw [hjobs]
    obtain hi | hi | hcurrent := h.ended i' k' d' hget'
    · exact .inl hi
    · exact .inr (.inl (List.mem_cons_of_mem _ hi))
    · by_cases hkk : k' = k
      · subst hkk
        rw [hk] at hcurrent
        cases hcurrent
        exact .inr (.inl List.mem_cons_self)
      · exact .inr (.inr (by simpa [Ledger.finish, hkk] using hcurrent))
  · intro e he
    obtain rfl | he := List.mem_cons.1 he
    · exact ⟨i, d, by simp [hk], hget⟩
    · exact h.done e he
  · rw [hjobs]
    exact List.nodup_cons.2 ⟨hdone, h.once⟩
  · intro i' hi'
    obtain ⟨hlt, hdone'⟩ := h.dropped i' hi'
    refine ⟨hlt, fun hi => ?_⟩
    rw [hjobs] at hi
    obtain hi | hi := List.mem_cons.1 hi
    · cases hi
      exact hnot hi'
    · exact hdone' hi

end Ledger
