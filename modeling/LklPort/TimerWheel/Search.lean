import LklPort.TimerWheel.Law

/-!
# The search for the next timer

`__next_timer_interrupt` looks through the lists of a vector in the order of their ticks. It stops
at the first list that has a timer, and goes on to the next vector only if a list of that one is
cascaded before. This is right if the timers of a list are due before the next list is taken apart,
as they are except for the timers in `tv5` that are too far away. For these the search stops too
early.

Times are compared by their distance from `timer_jiffies`, a number with a sign.
-/

namespace LklPort.TimerWheel

open List BitVec

variable {T : Type} {df : T → Bool} {b : Base T} {n : ℕ} {due : T → Option ℕ}

/-! ### Distances -/

/-- The distance of a time from `timer_jiffies`. -/
def ahead (j e : Jiffies) : ℤ := (e - j).toInt

lemma toInt_sub_eq {j x y : Jiffies} (hlow : -2 ^ 63 ≤ ahead j x - ahead j y)
    (hhigh : ahead j x - ahead j y < 2 ^ 63) : (x - y).toInt = ahead j x - ahead j y := by
  have hsub : x - y = (x - j) - (y - j) := by bv_omega
  rw [hsub, toInt_sub]
  exact Int.bmod_eq_of_le (by unfold ahead at hlow; omega) (by unfold ahead at hhigh; omega)

variable {j x y e : Jiffies} {r : ℕ} {found : Bool} {ls : List Level}

lemma timeBefore_iff (hlow : -2 ^ 63 ≤ ahead j x - ahead j y)
    (hhigh : ahead j x - ahead j y < 2 ^ 63) : timeBefore x y = true ↔ ahead j x < ahead j y := by
  unfold timeBefore timeAfter
  rw [toInt_sub_eq hlow hhigh, decide_eq_true_iff]
  omega

lemma timeAfter_eq_false (hlow : -2 ^ 63 ≤ ahead j y - ahead j x)
    (hhigh : ahead j y - ahead j x < 2 ^ 63) (hle : ahead j x ≤ ahead j y) :
    timeAfter x y = false := by
  unfold timeAfter
  rw [toInt_sub_eq hlow hhigh, decide_eq_false_iff_not]
  omega

@[simp] lemma ahead_self (j : Jiffies) : ahead j j = 0 := by
  simp [ahead]

lemma ahead_add_maxDelta (j : Jiffies) : ahead j (j + nextTimerMaxDelta) = 2 ^ 30 - 1 := by
  have hsub : j + nextTimerMaxDelta - j = nextTimerMaxDelta := by
    rw [BitVec.add_comm, BitVec.add_sub_cancel]
  rw [ahead, hsub]
  decide

lemma Future.ahead_eq {d : ℕ} (h : Future e n d) : ahead (BitVec.ofNat 64 n) e = d - n := by
  have hle := h.now_le
  have hlt := h.lt_now
  have hnat := h.toNat_sub
  have hint : (e - BitVec.ofNat 64 n).toInt = (e - BitVec.ofNat 64 n).toNat := by
    rw [toInt_eq_toNat_cond, if_pos (by omega)]
  unfold ahead
  omega

/-! ### Looking through lists -/

/-- The number of the first list that is taken apart at `n` or later, among lists of `2 ^ s`
ticks. -/
def nextList (n s : ℕ) : ℕ := (n + (2 ^ s - 1)) / 2 ^ s

lemma nextList_le {s a : ℕ} (h : n ≤ 2 ^ s * a) : nextList n s ≤ a := by
  have hpos : 0 < 2 ^ s := Nat.two_pow_pos s
  unfold nextList
  rw [Nat.div_le_iff_le_mul_add_pred hpos]
  omega

lemma lt_nextList_add {s a m : ℕ} (h : 2 ^ s * a < n + 2 ^ s * m) : a < nextList n s + m := by
  have hceil : n ≤ 2 ^ s * nextList n s := by
    unfold nextList
    have := Nat.div_add_mod (n + (2 ^ s - 1)) (2 ^ s)
    omega
  have hlt : 2 ^ s * a < 2 ^ s * (nextList n s + m) := by
    rw [Nat.mul_add]
    omega
  exact Nat.lt_of_mul_lt_mul_left hlt

lemma nextList_nextList (n s : ℕ) : nextList (nextList n s) 6 = nextList n (s + 6) := by
  have hpos : 0 < 2 ^ s := Nat.two_pow_pos s
  unfold nextList
  rw [pow_add, ← Nat.div_div_eq_div_mul, ← Nat.add_mul_div_left _ _ hpos]
  congr 2
  omega

@[simp] lemma nextList_zero (n : ℕ) : nextList n 0 = n := by
  simp [nextList]

/-- There is no timer in the list that makes the search stop. -/
def Silent (df : T → Bool) (ts : List T) : Prop := ∀ t ∈ ts, df t = true

lemma Silent.cons {f : ℕ → List T} {a k m : ℕ} (ha : Silent df (f a))
    (h : ∀ m, a + 1 ≤ m → m < k → Silent df (f m)) (ham : a ≤ m) (hm : m < k) :
    Silent df (f m) := by
  obtain rfl | ham := eq_or_lt_of_le ham
  · exact ha
  · exact h m ham hm

lemma searchRoot_spec (df : T → Bool) (b : Base T) (start j rounds : ℕ) :
    (∃ k, j ≤ k ∧ k < j + rounds ∧ (∃ t ∈ b.list (.vec 0 ((start + k) % 2 ^ 8)), df t = false ∧
        searchRoot df b start j rounds = some (b.expires t, (start + k) % 2 ^ 8)) ∧
      ∀ m, j ≤ m → m < k → Silent df (b.list (.vec 0 ((start + m) % 2 ^ 8)))) ∨
    ((∀ m, j ≤ m → m < j + rounds → Silent df (b.list (.vec 0 ((start + m) % 2 ^ 8)))) ∧
      searchRoot df b start j rounds = none) := by
  induction rounds generalizing j with
  | zero =>
    refine .inr ⟨fun m hjm hm => ?_, rfl⟩
    omega
  | succ _ ih =>
    rw [searchRoot]
    cases hfind : (b.list (.vec 0 ((start + j) % 2 ^ 8))).find? (fun t => !df t) with
    | some t =>
      have hdef := List.find?_some hfind
      refine .inl ⟨j, le_refl j, by omega,
        ⟨t, mem_of_find?_eq_some hfind, by simpa using hdef, rfl⟩, fun m hjm hmj => ?_⟩
      omega
    | none =>
      have hsilent : Silent df (b.list (.vec 0 ((start + j) % 2 ^ 8))) := fun t ht => by
        simpa using List.find?_eq_none.1 hfind t ht
      obtain ⟨k, hjk, hk, ht, hbefore⟩ | ⟨hall, heq⟩ := ih (j + 1)
      · exact .inl ⟨k, by omega, by omega, ht, fun m => hsilent.cons hbefore⟩
      · exact .inr ⟨fun m hjm hm => hsilent.cons hall hjm (by omega), heq⟩

/-- The times in the range where distances can be compared. -/
def InRange (j e : Jiffies) : Prop := -2 ^ 62 ≤ ahead j e ∧ ahead j e < 2 ^ 62
  deriving Decidable

/-- The step of the search from one timer of a list to the next. -/
def searchTimer (b : Base T) (r : Jiffies × Bool) (t : T) : Jiffies × Bool :=
  (if timeBefore (b.expires t) r.1 then b.expires t else r.1, true)

lemma foldl_searchTimer_found (ts : List T) (r : Jiffies × Bool) :
    (ts.foldl (searchTimer b) r).2 = true ↔ r.2 = true ∨ ts ≠ [] := by
  induction ts generalizing r with
  | nil => simp
  | cons _ _ ih => simp [ih, searchTimer]

lemma searchList_found_iff (ts : List T) (e : Jiffies) :
    (searchList df b ts e).2 = true ↔ ¬ Silent df ts := by
  apply (foldl_searchTimer_found _ _).trans
  simp [filter_eq_nil_iff, Silent]

lemma searchTimer_spec {t : T} (found : Bool) (he : InRange j e) (ht : InRange j (b.expires t)) :
    InRange j (searchTimer b (e, found) t).1 ∧ ahead j (searchTimer b (e, found) t).1 ≤ ahead j e ∧
      ahead j (searchTimer b (e, found) t).1 ≤ ahead j (b.expires t) := by
  have hbefore := timeBefore_iff (j := j) (x := b.expires t) (y := e)
    (by unfold InRange at ht he; omega) (by unfold InRange at ht he; omega)
  unfold searchTimer
  simp only
  split_ifs with hlt
  · rw [hbefore] at hlt
    exact ⟨ht, by omega, le_refl _⟩
  · rw [hbefore] at hlt
    exact ⟨he, le_refl _, by omega⟩

lemma foldl_searchTimer_spec (ts : List T) {r : Jiffies × Bool} (hr : InRange j r.1)
    (hts : ∀ t ∈ ts, InRange j (b.expires t)) : InRange j (ts.foldl (searchTimer b) r).1 ∧
      ahead j (ts.foldl (searchTimer b) r).1 ≤ ahead j r.1 ∧
      ∀ t ∈ ts, ahead j (ts.foldl (searchTimer b) r).1 ≤ ahead j (b.expires t) := by
  induction ts generalizing r with
  | nil => exact ⟨hr, le_refl _, fun t ht => absurd ht not_mem_nil⟩
  | cons t _ ih =>
    obtain ⟨hin, hle, hlet⟩ := searchTimer_spec r.2 hr (hts t mem_cons_self)
    obtain ⟨hin', hle', hall⟩ := ih hin fun t' ht' => hts t' (mem_cons_of_mem t ht')
    refine ⟨hin', le_trans hle' hle, fun t' ht' => ?_⟩
    obtain rfl | ht' := List.mem_cons.1 ht'
    · exact le_trans hle' hlet
    · exact hall t' ht'

lemma searchList_spec (ts : List T) (he : InRange j e)
    (hts : ∀ t ∈ ts, df t = false → InRange j (b.expires t)) :
    InRange j (searchList df b ts e).1 ∧ ahead j (searchList df b ts e).1 ≤ ahead j e ∧
      ∀ t ∈ ts, df t = false → ahead j (searchList df b ts e).1 ≤ ahead j (b.expires t) := by
  have hfilter : ∀ t, t ∈ ts.filter (fun t => !df t) ↔ t ∈ ts ∧ df t = false := by
    simp
  obtain ⟨hin, hle, hall⟩ := foldl_searchTimer_spec (r := (e, false))
    (ts.filter fun t => !df t) he fun t ht => by
      obtain ⟨hmem, hdef⟩ := (hfilter t).1 ht
      exact hts t hmem hdef
  exact ⟨hin, hle, fun t ht hdef => hall t ((hfilter t).2 ⟨ht, hdef⟩)⟩

lemma searchList_silent {ts : List T} (h : Silent df ts) : searchList df b ts e = (e, false) := by
  have hnil : ts.filter (fun t => !df t) = [] := by
    rw [filter_eq_nil_iff]
    intro t ht
    simp [h t ht]
  rw [searchList, hnil]
  rfl

lemma searchVec_found (l : Level) (start : ℕ) (e : Jiffies) (hstart : start < 2 ^ 6) :
    searchVec df b l start true e 0 (2 ^ 6) =
      ((searchList df b (b.list (.vec l start)) e).1, some start) := by
  have hmod : (start + 0) % 2 ^ 6 = start := by omega
  change searchVec df b l start true e 0 (63 + 1) = _
  unfold searchVec
  simp only [Bool.true_or, if_true, hmod]

lemma searchVec_notFound (df : T → Bool) (b : Base T) (l : Level) (start : ℕ)
    (e : Jiffies) (j rounds : ℕ) : (∃ k, j ≤ k ∧ k < j + rounds ∧
      (¬ Silent df (b.list (.vec l ((start + k) % 2 ^ 6)))) ∧
      (∀ m, j ≤ m → m < k → Silent df (b.list (.vec l ((start + m) % 2 ^ 6)))) ∧
      searchVec df b l start false e j rounds =
        ((searchList df b (b.list (.vec l ((start + k) % 2 ^ 6))) e).1,
          some ((start + k) % 2 ^ 6))) ∨
    ((∀ m, j ≤ m → m < j + rounds → Silent df (b.list (.vec l ((start + m) % 2 ^ 6)))) ∧
      searchVec df b l start false e j rounds = (e, none)) := by
  induction rounds generalizing j with
  | zero =>
    refine .inr ⟨fun m hjm hm => ?_, rfl⟩
    omega
  | succ rounds ih =>
    by_cases hsilent : Silent df (b.list (.vec l ((start + j) % 2 ^ 6)))
    · have hstep : searchVec df b l start false e j (rounds + 1) =
          searchVec df b l start false e (j + 1) rounds := by
        rw [searchVec]
        simp only [searchList_silent hsilent, Bool.or_false, Bool.false_eq_true, if_false]
      rw [hstep]
      obtain ⟨k, hjk, hk, hnot, hbefore, heq⟩ | ⟨hall, heq⟩ := ih (j + 1)
      · exact .inl ⟨k, by omega, by omega, hnot, fun m => hsilent.cons hbefore, heq⟩
      · exact .inr ⟨fun m hjm hm => hsilent.cons hall hjm (by omega), heq⟩
    · have hfound := (searchList_found_iff (b := b) _ e).2 hsilent
      refine .inl ⟨j, le_refl j, by omega, hsilent, fun m hjm hmj => ?_, ?_⟩
      · omega
      · rw [searchVec]
        simp only [hfound, Bool.or_true, if_true]

/-! ### The vectors one after another -/

/-- No timer of `tv5` that matters is too far away for the wheel: each is on the list for the time
when it expires. -/
def Sorted (deferrable : T → Bool) (b : Base T) : Prop :=
  ∀ t i, deferrable t = false → b.entry t = some (.vec 4 i) →
    (b.expires t - b.timerJiffies).toNat < 2 ^ 32 ∧ (b.expires t).toNat / 2 ^ 26 % 2 ^ 6 = i

/-- The base at the start of a search. -/
structure Searchable (df : T → Bool) (b : Base T) (n : ℕ) (due : T → Option ℕ) :
    Prop where
  wheel : Wheel (fun _ => False) b n due []
  sorted : Sorted df b
  range : ∀ t l i, df t = false → b.entry t = some (.vec l i) → InRange b.timerJiffies (b.expires t)

variable {t : T} {l : Level} {i d : ℕ}

lemma Searchable.timer (h : Searchable df b n due) (hdef : df t = false)
    (hentry : b.entry t = some (.vec l i)) (hd : due t = some d) :
    ahead b.timerJiffies (b.expires t) ≤ d - n ∧
      ∃ a, i = a % size l ∧ n ≤ 2 ^ shift l * a ∧ a < nextList n (shift l) + size l ∧
        2 ^ shift l * a ≤ d ∧ d < 2 ^ shift l * (a + 1) := by
  obtain ⟨⟨c, hslot, -⟩, hexp⟩ := h.wheel.placed t l i d not_mem_nil hentry hd
  have hle := hslot.le_due
  have hnow := hslot.now_le
  have hlt := hslot.lt_now
  have hi := hslot.slot
  have hlt_due : d < c + 2 ^ shift l := by
    by_cases hl : l = 4
    · subst hl
      obtain ⟨hrange, hown⟩ := h.sorted t i hdef hentry
      obtain hfuture | ⟨hzero, -⟩ := hexp
      · obtain ⟨a, rfl⟩ := hslot.dvd
        rw [h.wheel.now, hfuture.toNat_sub] at hrange
        rw [hfuture.expires, toNat_ofNat] at hown
        simp only [shift, size] at *
        omega
      · exact absurd hzero (by decide)
    · exact hslot.due_lt hl
  constructor
  · rw [h.wheel.now] at hexp ⊢
    obtain hfuture | ⟨-, rfl, hpast⟩ := hexp
    · exact le_of_eq hfuture.ahead_eq
    · unfold ahead
      omega
  · obtain ⟨a, rfl⟩ := hslot.dvd
    refine ⟨a, ?_, hnow, lt_nextList_add hlt, hle, by omega⟩
    rw [hi, Nat.mul_div_cancel_left _ (Nat.two_pow_pos _)]

/-- The list that is taken apart after `r` others. -/
abbrev Base.later (b : Base T) (n : ℕ) (l : Level) (r : ℕ) : List T :=
  b.list (.vec l ((nextList n (shift l) + r) % size l))

/-- The time `e` comes before the list after that one is taken apart. -/
abbrev Soon (b : Base T) (n : ℕ) (l : Level) (r : ℕ) (e : Jiffies) : Prop :=
  n + ahead b.timerJiffies e < (2 ^ shift l * (nextList n (shift l) + r + 1) : ℕ)

/-- The search of the vector has come to its end, so that the next vector has to be searched. -/
abbrev Wraps (n : ℕ) (l : Level) (r : ℕ) : Prop :=
  nextList n (shift l) % size l = 0 ∨
    (nextList n (shift l) + r) % size l < nextList n (shift l) % size l

/-- What the search has found is not after any timer that matters. -/
structure Early (df : T → Bool) (b : Base T) (n : ℕ) (due : T → Option ℕ) (e : Jiffies)
    (levels : Level → Prop) : Prop where
  range : InRange b.timerJiffies e
  le_max : ahead b.timerJiffies e ≤ 2 ^ 30 - 1
  early : ∀ t k i d, df t = false → levels k → b.entry t = some (.vec k i) →
    due t = some d → ahead b.timerJiffies e ≤ d - n

/-- The search before it looks at the vector `m`, counted from 0. -/
structure Searching (df : T → Bool) (b : Base T) (n : ℕ) (due : T → Option ℕ) (m : ℕ)
    (j : Jiffies) (found : Bool) (e : Jiffies) : Prop
    extends Early df b n due e (fun k => k.val < m) where
  next : j.toNat % 2 ^ (6 * (5 - m)) = nextList n (6 * m + 2) % 2 ^ (6 * (5 - m))
  silent : found = false → ∀ t k i, df t = false → k.val < m → b.entry t ≠ some (.vec k i)
  soon : found = true →
    n + ahead b.timerJiffies e < (2 ^ (6 * m + 2) * (nextList n (6 * m + 2) + 1) : ℕ)

lemma Early.mono {P Q : Level → Prop} (h : Early df b n due e P) (hPQ : ∀ k, Q k → P k) :
    Early df b n due e Q :=
  ⟨h.range, h.le_max, fun t k i d hdef hk => h.early t k i d hdef (hPQ k hk)⟩

lemma mul_size (l : Level) : 2 ^ shift l * size l = 2 ^ (6 * (l.val + 1) + 2) := by
  revert l
  decide

lemma size_cases : ∀ l : Level, size l = 256 ∨ size l = 64 := by
  decide

lemma shift_of_ne_zero : ∀ {l : Level}, l ≠ 0 → shift l = 6 * l.val + 2 := by
  decide

lemma shift_of_lt : ∀ {k l : Level}, l < k → 6 * (l.val + 1) + 2 ≤ shift k := by
  decide

lemma nextList_next (n : ℕ) (l : Level) :
    nextList n (6 * (l.val + 1) + 2) = (nextList n (shift l) + (size l - 1)) / size l := by
  by_cases hl : l = 0
  · subst hl
    simp [nextList, shift, size]
  · have hshift : 6 * (l.val + 1) + 2 = shift l + 6 := by
      rw [shift_of_ne_zero hl]
      omega
    rw [hshift, ← nextList_nextList, size_of_ne_zero hl]
    rfl

lemma Early.stop (h : Searchable df b n due) (he : Early df b n due e (fun k => k.val < l.val))
    (hlist : ∀ t ∈ b.later n l r, df t = false →
      ∀ d, due t = some d → ahead b.timerJiffies e ≤ d - n) (hsilent : ∀ m < r,
      Silent df (b.later n l m))
    (hsoon : Soon b n l r e) :
    Early df b n due e (fun k => k.val < l.val + 1) := by
  refine ⟨he.range, he.le_max, fun t k i d hdef hk hentry hd => ?_⟩
  obtain hlt | heq := lt_or_eq_of_le (Nat.le_of_lt_succ hk)
  · exact he.early t k i d hdef hlt hentry hd
  · obtain rfl : k = l := Fin.ext heq
    obtain ⟨-, a, rfl, hnow, -, hle, -⟩ := h.timer hdef hentry hd
    have hmem := h.wheel.mem_iff.2 hentry
    obtain ⟨m, rfl⟩ := Nat.exists_eq_add_of_le (nextList_le hnow)
    obtain hm | rfl | hm := Nat.lt_trichotomy m r
    · have hlate := hsilent m hm t hmem
      simp [hdef] at hlate
    · exact hlist t hmem hdef d hd
    · have hge : 2 ^ shift k * (nextList n (shift k) + r + 1) ≤ d :=
        le_trans (Nat.mul_le_mul_left _ (by omega)) hle
      omega

lemma Early.rest (h : Searchable df b n due) (he : Early df b n due e (fun k => k.val < l.val + 1))
    (hsoon : n + ahead b.timerJiffies e <
      (2 ^ (6 * (l.val + 1) + 2) * nextList n (6 * (l.val + 1) + 2) : ℕ)) :
    Early df b n due e (fun _ => True) := by
  refine ⟨he.range, he.le_max, fun t k i d hdef _ hentry hd => ?_⟩
  by_cases hk : k.val < l.val + 1
  · exact he.early t k i d hdef hk hentry hd
  · obtain ⟨-, a, -, hnow, -, hle, -⟩ := h.timer hdef hentry hd
    have hlk : l < k := by
      rw [Fin.lt_def]
      omega
    obtain ⟨x, hx⟩ := Nat.pow_dvd_pow 2 (shift_of_lt hlk)
    rw [hx, mul_assoc] at hnow hle
    have hge := Nat.mul_le_mul_left (2 ^ (6 * (l.val + 1) + 2)) (nextList_le hnow)
    omega

lemma wrap_le {n : ℕ} (hr : r < size l) :
    nextList n (shift l) + r + 1 ≤ size l * (nextList n (6 * (l.val + 1) + 2) + 1) := by
  rw [nextList_next]
  obtain hsize | hsize := size_cases l
  all_goals
    rw [hsize] at hr ⊢
    omega

lemma noWrap_le {n : ℕ} (hr : r < size l) (hwrap : ¬ Wraps n l r) :
    nextList n (shift l) + r + 1 ≤ size l * nextList n (6 * (l.val + 1) + 2) := by
  rw [nextList_next]
  unfold Wraps at hwrap
  obtain hsize | hsize := size_cases l
  all_goals
    rw [hsize] at hr hwrap ⊢
    omega

lemma Early.goOn (h : Searchable df b n due)
    (he : Early df b n due e (fun k => k.val < l.val + 1)) (hr : r < size l)
    (hsoon : Soon b n l r e)
    (hj : j.toNat % 2 ^ (6 * (5 - (l.val + 1))) =
      nextList n (6 * (l.val + 1) + 2) % 2 ^ (6 * (5 - (l.val + 1)))) (f : Jiffies → Jiffies)
    (hf : Searching df b n due (l.val + 1) j true e →
      Early df b n due (f e) (fun _ => True)) : Early df b n due
      (if Wraps n l r then f e else e)
      (fun _ => True) := by
  split_ifs with hwrap
  · refine hf ⟨he, hj, fun hfound => absurd hfound (by simp), fun _ => ?_⟩
    have hle := Nat.mul_le_mul_left (2 ^ shift l) (wrap_le (n := n) hr)
    rw [← mul_assoc, mul_size] at hle
    omega
  · apply he.rest h
    have hle := Nat.mul_le_mul_left (2 ^ shift l) (noWrap_le hr hwrap)
    rw [← mul_assoc, mul_size] at hle
    omega

lemma toNat_nextCascade (j : Jiffies) (bits : ℕ) : (nextCascade j bits).toNat =
      (if j.toNat % 2 ^ bits ≠ 0 then (j.toNat + (2 ^ bits - j.toNat % 2 ^ bits) % 2 ^ 64) % 2 ^ 64
        else j.toNat) / 2 ^ bits := by
  unfold nextCascade
  simp only [toNat_ushiftRight, Nat.shiftRight_eq_div_pow]
  split_ifs
  · rw [toNat_add, toNat_ofNat]
  · rfl

lemma nextCascade_root (hj : b.timerJiffies = BitVec.ofNat 64 n) :
    (nextCascade b.timerJiffies 8).toNat % 2 ^ 24 = nextList n 8 % 2 ^ 24 := by
  rw [toNat_nextCascade, hj, toNat_ofNat, nextList]
  split_ifs <;> omega

lemma nextCascade_vec (hl : l ≠ 0)
    (hj : j.toNat % 2 ^ (6 * (5 - l.val)) = nextList n (6 * l.val + 2) % 2 ^ (6 * (5 - l.val))) :
    (nextCascade j 6).toNat % 2 ^ (6 * (5 - (l.val + 1))) =
      nextList n (6 * (l.val + 1) + 2) % 2 ^ (6 * (5 - (l.val + 1))) := by
  rw [nextList_next, size_of_ne_zero hl, shift_of_ne_zero hl, toNat_nextCascade]
  generalize nextList n (6 * l.val + 2) = k at *
  match l, hl with
  | 1, _ =>
    change j.toNat % 2 ^ 24 = k % 2 ^ 24 at hj
    change _ % 2 ^ 18 = _ % 2 ^ 18
    split_ifs <;> omega
  | 2, _ =>
    change j.toNat % 2 ^ 18 = k % 2 ^ 18 at hj
    change _ % 2 ^ 12 = _ % 2 ^ 12
    split_ifs <;> omega
  | 3, _ =>
    change j.toNat % 2 ^ 12 = k % 2 ^ 12 at hj
    change _ % 2 ^ 6 = _ % 2 ^ 6
    split_ifs <;> omega
  | 4, _ =>
    change _ % 2 ^ 0 = _ % 2 ^ 0
    omega

section

variable (h : Searchable df b n due)

include h

lemma Searchable.not_entry (hsilent : ∀ m < size l,
      Silent df (b.later n l m))
    (hdef : df t = false) : b.entry t ≠ some (.vec l i) := by
  intro hentry
  obtain ⟨d, hd⟩ := h.wheel.exists_due hentry
  obtain ⟨-, a, rfl, hnow, hlt, -⟩ := h.timer hdef hentry hd
  obtain ⟨m, rfl⟩ := Nat.exists_eq_add_of_le (nextList_le hnow)
  have hlate := hsilent m (by omega) t (h.wheel.mem_iff.2 hentry)
  simp [hdef] at hlate

section

variable (hr : r < size l) (hdef : df t = false) (ht : t ∈ b.later n l r)

include hr hdef ht

lemma Searchable.due_lt (hd : due t = some d) : 2 ^ shift l * (nextList n (shift l) + r) ≤ d ∧
      d < 2 ^ shift l * (nextList n (shift l) + r + 1) := by
  obtain ⟨-, a, hi, hnow, hlt, hle, hdue⟩ := h.timer hdef (h.wheel.mem_iff.1 ht) hd
  obtain ⟨m, rfl⟩ := Nat.exists_eq_add_of_le (nextList_le hnow)
  have hmr : m = r := by
    obtain hsize | hsize := size_cases l
    all_goals
      rw [hsize] at hr hi hlt
      omega
  subst hmr
  exact ⟨hle, hdue⟩

lemma Searchable.soon (he : ahead b.timerJiffies e ≤ ahead b.timerJiffies (b.expires t)) :
    Soon b n l r e := by
  have hentry := h.wheel.mem_iff.1 ht
  obtain ⟨d, hd⟩ := h.wheel.exists_due hentry
  have hahead := (h.timer hdef hentry hd).1
  have hdue := (h.due_lt hr hdef ht hd).2
  omega

end

end

lemma searchVecs_cons (h : Searchable df b n due) (hl : l ≠ 0)
    (hs : Searching df b n due l.val j found e)
    (hls : ∀ found e, Searching df b n due (l.val + 1) (nextCascade j 6) found e →
      Early df b n due (searchVecs df b ls (nextCascade j 6) found e) (fun _ => True)) :
    Early df b n due (searchVecs df b (l :: ls) j found e) (fun _ => True) := by
  have hsize := size_of_ne_zero hl
  have hi : j.toNat % 2 ^ 6 = nextList n (shift l) % size l := by
    have hdvd : 2 ^ 6 ∣ 2 ^ (6 * (5 - l.val)) := Nat.pow_dvd_pow 2 (by omega)
    rw [hsize, shift_of_ne_zero hl, ← Nat.mod_mod_of_dvd _ hdvd, hs.next, Nat.mod_mod_of_dvd _ hdvd]
  have hslot : ∀ k, (j.toNat % 2 ^ 6 + k) % 2 ^ 6 = (nextList n (shift l) + k) % size l := by
    intro k
    rw [hi, hsize, Nat.mod_add_mod]
  have hnext := nextCascade_vec hl hs.next
  have hspec (r : ℕ) := searchList_spec (b.later n l r) hs.range fun t ht hdef =>
    h.range t l _ hdef (h.wheel.mem_iff.1 ht)
  -- the search stops at a list
  have hstop : ∀ r < size l, (∀ m < r, Silent df (b.later n l m)) →
      ∀ e', e' = (searchList df b (b.later n l r) e).1 → Soon b n l r e' →
      Early df b n due (if Wraps n l r then
          searchVecs df b ls (nextCascade j 6) true e' else e') (fun _ => True) := by
    intro r hr hsilent e' he' hsoon
    obtain ⟨hin, hle, hall⟩ := hspec r
    rw [← he'] at hin hle hall
    have hearly : Early df b n due e' (fun k => k.val < l.val) :=
      ⟨hin, le_trans hle hs.le_max, fun t k i d hdef hk hentry hd =>
        le_trans hle (hs.early t k i d hdef hk hentry hd)⟩
    have hlist : ∀ t ∈ b.later n l r,
        df t = false → ∀ d, due t = some d → ahead b.timerJiffies e' ≤ d - n :=
      fun t ht hdef d hd => le_trans (hall t ht hdef) (h.timer hdef (h.wheel.mem_iff.1 ht) hd).1
    exact (hearly.stop h hlist hsilent hsoon).goOn h hr hsoon hnext
      (searchVecs df b ls (nextCascade j 6) true) (hls true e')
  cases found with
  | true =>
    have hsoon := hs.soon rfl
    rw [← shift_of_ne_zero hl] at hsoon
    rw [searchVecs, searchVec_found l _ e (Nat.mod_lt _ (by decide)), hi]
    have hle := (hspec 0).2.1
    rw [Base.later, add_zero] at hle
    exact hstop 0 (by omega) (by simp) _ rfl (by rw [Soon, add_zero]; omega)
  | false =>
    obtain ⟨k, -, hk, hloud, hsilent, heq⟩ | ⟨hsilent, heq⟩ :=
      searchVec_notFound df b l (j.toNat % 2 ^ 6) e 0 (2 ^ 6)
    · rw [searchVecs]
      simp only [heq, hslot] at hloud hsilent ⊢
      rw [hi]
      refine hstop k (by omega) (fun m => hsilent m (Nat.zero_le m)) _ rfl ?_
      simp only [Silent, not_forall, Bool.not_eq_true] at hloud
      obtain ⟨t, ht, hdef⟩ := hloud
      exact h.soon (by omega) hdef ht ((hspec k).2.2 t ht hdef)
    · rw [searchVecs]
      simp only [heq, hslot] at hsilent ⊢
      have hnot : ∀ t i, df t = false → b.entry t ≠ some (.vec l i) := fun t i hdef =>
        h.not_entry (fun m hm => hsilent m (Nat.zero_le m) (by omega)) hdef
      have hearlier : ∀ t (k : Level) i, df t = false → k.val < l.val + 1 →
          b.entry t ≠ some (.vec k i) := by
        intro t k i hdef hk
        obtain hlt | heq := lt_or_eq_of_le (Nat.le_of_lt_succ hk)
        · exact hs.silent rfl t k i hdef hlt
        · rw [Fin.ext heq]
          exact hnot t i hdef
      refine hls false e ⟨⟨hs.range, hs.le_max, ?_⟩, hnext, fun _ => hearlier, by simp⟩
      intro t k i d hdef hk hentry
      exact absurd hentry (hearlier t k i hdef hk)

/-- The time that `__next_timer_interrupt` returns is not after any timer. -/
theorem nextTimerInterrupt_early (h : Searchable df b n due) :
    Early df b n due (nextTimerInterrupt df b) (fun _ => True) := by
  have hvecs : ∀ found e, Searching df b n due 1 (nextCascade b.timerJiffies 8) found e →
      Early df b n due (searchVecs df b [1, 2, 3, 4] (nextCascade b.timerJiffies 8) found e)
        (fun _ => True) := by
    intro found e hs
    iterate 4 refine searchVecs_cons h (by decide) hs fun found e hs => ?_
    exact hs.toEarly.mono fun k _ => k.isLt
  have hi : b.timerJiffies.toNat % 2 ^ 8 = nextList n (shift 0) % size 0 := by
    rw [h.wheel.now, toNat_ofNat]
    simp only [shift, size, nextList_zero]
    omega
  have hslot : ∀ k, (b.timerJiffies.toNat % 2 ^ 8 + k) % 2 ^ 8 =
      (nextList n (shift 0) + k) % size 0 := by
    intro k
    rw [hi]
    exact Nat.mod_add_mod _ _ _
  have hnext := nextCascade_root h.wheel.now
  unfold nextTimerInterrupt
  simp only
  obtain ⟨r, -, hr, ⟨t, ht, hdef, heq⟩, hsilent⟩ | ⟨hsilent, heq⟩ :=
    searchRoot_spec df b (b.timerJiffies.toNat % 2 ^ 8) 0 (2 ^ 8)
  · rw [heq]
    simp only [hslot] at ht hsilent ⊢
    rw [hi]
    have hentry := h.wheel.mem_iff.1 ht
    obtain ⟨d, hd⟩ := h.wheel.exists_due hentry
    have hrsize : r < size 0 := by simpa [size] using hr
    have hahead := (h.timer hdef hentry hd).1
    have hdue := h.due_lt hrsize hdef ht hd
    simp only [shift, nextList_zero] at hdue
    have hearly : Early df b n due (b.expires t) (fun k => k.val < (0 : Level).val) := by
      refine ⟨h.range t 0 _ hdef hentry, by omega, fun t k i d hdef hk => ?_⟩
      exact absurd hk (Nat.not_lt_zero _)
    have hlist : ∀ t' ∈ b.later n 0 r,
        df t' = false → ∀ d, due t' = some d → ahead b.timerJiffies (b.expires t) ≤ d - n := by
      intro t' ht' hdef' d' hd'
      have hdue' := h.due_lt hrsize hdef' ht' hd'
      simp only [shift, nextList_zero] at hdue'
      omega
    have hsoon := h.soon hrsize hdef ht (le_refl _)
    exact (hearly.stop h hlist (fun m => hsilent m (Nat.zero_le m)) hsoon).goOn h hrsize
      hsoon hnext (fun e => searchVecs df b [1, 2, 3, 4] (nextCascade b.timerJiffies 8)
        true e) (hvecs true _)
  · rw [heq]
    simp only [hslot] at hsilent
    have hnot : ∀ t (k : Level) i, df t = false → k.val < 1 → b.entry t ≠ some (.vec k i) := by
      intro t k i hdef hk
      obtain rfl : k = 0 := Fin.ext (by omega)
      exact h.not_entry (fun m hm => hsilent m (Nat.zero_le m) (by simpa [size] using hm)) hdef
    have hmax := ahead_add_maxDelta b.timerJiffies
    refine hvecs false _ ⟨⟨?_, ?_, ?_⟩, hnext, fun _ => hnot, by simp⟩
    · unfold InRange
      omega
    · omega
    · intro t k i d hdef hk hentry
      exact absurd hentry (hnot t k i hdef hk)

end LklPort.TimerWheel
