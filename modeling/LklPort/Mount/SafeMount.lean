import LklPort.Mount.FsNames
import Mathlib.Data.List.Count
import Mathlib.Data.List.GetD
import Mathlib.Data.List.Nodup
import Mathlib.Order.Nat

/-!
# Copies of the strings of a mount

`sys_mount` copies a whole page from each of its strings, so `sys_safe_mount` first copies the
string into a page of its own. It does so with `strcpy`, which does not know the size of a page.

The memory is a function of the address. Every store is noted with the page that it is meant for
and with its index from the start of that page, and so are the pages that were allocated and
freed.
-/

namespace LklPort.Mount.SafeMount

open List

/-- A store into a page, given by the number of the page. -/
@[ext] structure Store where
  page : ℕ
  index : ℕ
  deriving DecidableEq

structure Heap where
  bytes : ℕ → Char
  stores : List Store
  allocated : List ℕ
  freed : List ℕ

/-- The memory when `sys_safe_mount` is called. -/
def Heap.init (bytes : ℕ → Char) : Heap := ⟨bytes, [], [], []⟩

def Heap.store (h : Heap) (page index : ℕ) (c : Char) : Heap :=
  { h with
    bytes := Function.update h.bytes (pageSize * page + index) c
    stores := ⟨page, index⟩ :: h.stores }

/-- `strcpy` into the page, from the index on. -/
def strcpy (h : Heap) (page : ℕ) : ℕ → CString → Heap
  | index, [] => h.store page index '\x00'
  | index, c :: s => strcpy (h.store page index c) page (index + 1) s

/-- The string that `sys_mount` finds in the page, which it copies as a whole. -/
def Heap.stringAt (h : Heap) (page : ℕ) : CString :=
  ((List.range pageSize).map fun i => h.bytes (pageSize * page + i)).takeWhile (· ≠ '\x00')

/-- The parameters of `sys_safe_mount` and of `sys_mount`. -/
structure Params where
  devName : Option CString
  dirName : ℕ
  type : Option CString
  flags : ℕ
  data : Option CString
  deriving DecidableEq

/-- What `__get_free_page` returns for each of the copies. The pages are different ones. -/
structure Pages where
  devName : Option ℕ
  type : Option ℕ
  data : Option ℕ
  distinct : ([devName, type, data].filterMap id).Nodup

/-- A string of a call, and the page for its copy. -/
abbrev Param := Option CString × Option ℕ

/-- The strings of `sys_safe_mount` in the order in which they are copied. -/
def Params.strings (a : Params) (pages : Pages) : List Param :=
  [(a.devName, pages.devName), (a.type, pages.type), (a.data, pages.data)]

/-- The blocks of `sys_safe_mount` that copy a string, one after another, with the pages that the
local variables have then. The last component is `false` if a block goes to `out_free`. -/
def copyParams (h : Heap) : List Param → Heap × List (Option ℕ) × Bool
  | [] => (h, [], true)
  | (none, _) :: l =>
    let (h, ps, ok) := copyParams h l
    (h, none :: ps, ok)
  | (some _, none) :: _ => (h, [], false)
  | (some s, some p) :: l =>
    let (h, ps, ok) := copyParams (strcpy { h with allocated := p :: h.allocated } p 0 s) l
    (h, some p :: ps, ok)

/-- `out_free`, where the local variables have the pages `ps`. -/
def outFree (h : Heap) (ps : List (Option ℕ)) : Heap :=
  { h with freed := h.freed ++ ps.filterMap id }

structure Result where
  heap : Heap
  ret : ℤ
  /-- The call of `sys_mount`. -/
  mounted : Option Params

/-- `-ENOMEM`. -/
def enomem : ℤ := -12

/-- `sys_safe_mount`, where `sys_mount` returns `ret`. -/
def sysSafeMount (h : Heap) (pages : Pages) (a : Params) (ret : ℤ) : Result :=
  match copyParams h (a.strings pages) with
  | (h, [devName, type, data], true) =>
    ⟨outFree h [devName, type, data], ret,
      some ⟨devName.map h.stringAt, a.dirName, type.map h.stringAt, a.flags, data.map h.stringAt⟩⟩
  | (h, ps, _) => ⟨outFree h ps, enomem, none⟩

/-- The strings that are copied: those before the first page that cannot be allocated. -/
def copiedStrings : List Param → List CString
  | [] => []
  | (none, _) :: l => copiedStrings l
  | (some _, none) :: _ => []
  | (some s, some _) :: l => s :: copiedStrings l

/-- The strings are terminated by the first NUL. -/
def Params.Terminated (a : Params) : Prop :=
  ∀ s, some s ∈ [a.devName, a.type, a.data] → '\x00' ∉ s

/-- A call stays inside its pages, passes on what it was given, and frees each page once. -/
structure Safe (a : Params) (r : Result) : Prop where
  inside : ∀ w ∈ r.heap.stores, w.page ∈ r.heap.allocated ∧ w.index < pageSize
  copies : ∀ b ∈ r.mounted, b = a
  freed : r.heap.allocated.Nodup ∧ ∀ p, r.heap.freed.count p = r.heap.allocated.count p

variable {w : Store} {page p : ℕ} {ps : List (ℕ × CString)}

/-! ### One copy -/

section

variable (h : Heap) (page index : ℕ) (s : CString)

@[simp] lemma allocated_strcpy : (strcpy h page index s).allocated = h.allocated := by
  induction s generalizing h index with
  | nil => rfl
  | cons _ _ ih => exact ih _ _

@[simp] lemma freed_strcpy : (strcpy h page index s).freed = h.freed := by
  induction s generalizing h index with
  | nil => rfl
  | cons _ _ ih => exact ih _ _

lemma mem_stores_strcpy : w ∈ (strcpy h page index s).stores ↔
      w ∈ h.stores ∨ w.page = page ∧ index ≤ w.index ∧ w.index ≤ index + s.length := by
  induction s generalizing h index with
  | nil =>
    rw [strcpy, Heap.store, mem_cons, Store.ext_iff, length_nil]
    grind
  | cons c _ ih =>
    apply (ih (h.store page index c) (index + 1)).trans
    rw [Heap.store, mem_cons, Store.ext_iff, length_cons]
    grind

lemma bytes_store (c : Char) (x : ℕ) : (h.store page index c).bytes x =
      if x = pageSize * page + index then c else h.bytes x :=
  Function.update_apply _ _ _ _

lemma bytes_strcpy_of_not {x : ℕ}
    (hx : x < pageSize * page + index ∨ pageSize * page + index + s.length < x) :
    (strcpy h page index s).bytes x = h.bytes x := by
  induction s generalizing h index with
  | nil =>
    rw [strcpy, bytes_store, if_neg]
    omega
  | cons _ _ ih =>
    rw [length_cons] at hx
    rw [strcpy, ih _ _ (by omega), bytes_store, if_neg (by omega)]

lemma bytes_strcpy {i : ℕ} (hi : i ≤ s.length) :
    (strcpy h page index s).bytes (pageSize * page + index + i) = s.getD i '\x00' := by
  induction s generalizing h index i with
  | nil =>
    obtain rfl : i = 0 := by simpa using hi
    rw [strcpy, bytes_store, if_pos (Nat.add_zero _)]
    rfl
  | cons c _ ih =>
    cases i with
    | zero =>
      rw [strcpy, bytes_strcpy_of_not _ _ _ _ (.inl (by omega)), bytes_store,
        if_pos (Nat.add_zero _)]
      rfl
    | succ =>
      rw [getD_cons_succ, ← ih (h.store page index c) (index + 1) (by simpa using hi)]
      congr 1
      omega

end

variable {h : Heap} {s : CString}

lemma stringAt_eq (hlen : s.length < pageSize) (hs : '\x00' ∉ s)
    (hbytes : ∀ i ≤ s.length, h.bytes (pageSize * page + i) = s.getD i '\x00') :
    h.stringAt page = s := by
  obtain ⟨k, hk⟩ : ∃ k, pageSize = s.length + (1 + k) := ⟨pageSize - s.length - 1, by omega⟩
  have hrange : (List.range pageSize).map (fun i => h.bytes (pageSize * page + i)) =
      s ++ '\x00' :: (List.range k).map
        fun i => h.bytes (pageSize * page + (s.length + (1 + i))) := by
    apply ext_getElem
    · simp
      omega
    · intro i hi hi'
      rw [getElem_map, getElem_range]
      rcases lt_trichotomy i s.length with hlt | rfl | hgt
      · rw [hbytes i hlt.le, getElem_append_left hlt, getD_eq_getElem s _ hlt]
      · rw [hbytes _ le_rfl, getElem_append_right le_rfl]
        simp
      · obtain ⟨j, rfl⟩ : ∃ j, i = s.length + (1 + j) := ⟨i - s.length - 1, by omega⟩
        simp [Nat.add_comm 1 j]
  rw [Heap.stringAt, hrange, takeWhile_append_of_pos]
  · simp
  · intro c hc
    simpa using ne_of_mem_of_not_mem hc hs

/-! ### The copies of a call -/

/-- The state after the strings of `ps` were copied into their pages. -/
structure Copied (ps : List (ℕ × CString)) (h : Heap) : Prop where
  allocated : h.allocated = ps.map Prod.fst
  freed : h.freed = []
  pages : ∀ w ∈ h.stores, w.page ∈ h.allocated
  inside : (∀ w ∈ h.stores, w.index < pageSize) ↔ ∀ x ∈ ps, x.2.length < pageSize
  strings : (∀ x ∈ ps, x.2.length < pageSize ∧ '\x00' ∉ x.2) → ∀ x ∈ ps, h.stringAt x.1 = x.2

lemma copied_init (bytes : ℕ → Char) : Copied [] (Heap.init bytes) where
  allocated := rfl
  freed := rfl
  pages := nofun
  inside := by simp [Heap.init]
  strings := by simp

lemma stringAt_strcpy_of_ne {q : ℕ} (hlen : s.length < pageSize) (hne : q ≠ p) :
    (strcpy h p 0 s).stringAt q = h.stringAt q := by
  rw [Heap.stringAt, Heap.stringAt, map_congr_left]
  intro i hi
  apply bytes_strcpy_of_not _ _ _ _
  rw [mem_range] at hi
  rcases Nat.lt_or_gt_of_ne hne with hlt | hgt
  · have := Nat.mul_le_mul_left pageSize (Nat.succ_le_of_lt hlt)
    rw [Nat.mul_succ] at this
    omega
  · have := Nat.mul_le_mul_left pageSize (Nat.succ_le_of_lt hgt)
    rw [Nat.mul_succ] at this
    omega

lemma Copied.strcpy (hc : Copied ps h) (hp : p ∉ ps.map Prod.fst) (s : CString) :
    Copied ((p, s) :: ps) (strcpy { h with allocated := p :: h.allocated } p 0 s) where
  allocated := by
    rw [allocated_strcpy, hc.allocated]
    rfl
  freed := by
    rw [freed_strcpy]
    exact hc.freed
  pages := by
    intro w hw
    rw [allocated_strcpy]
    rcases (mem_stores_strcpy _ _ _ _).1 hw with hold | ⟨hpage, -, -⟩
    · exact mem_cons_of_mem _ (hc.pages w hold)
    · exact hpage ▸ mem_cons_self
  inside := by
    rw [forall_mem_cons, ← hc.inside]
    constructor
    · intro hin
      refine ⟨?_, fun w hw => hin w ((mem_stores_strcpy _ _ _ _).2 (.inl hw))⟩
      exact hin ⟨p, s.length⟩ ((mem_stores_strcpy _ _ _ _).2 (.inr ⟨rfl, by simp⟩))
    · rintro ⟨hlen, hin⟩ w hw
      rcases (mem_stores_strcpy _ _ _ _).1 hw with hold | ⟨-, -, hle⟩
      · exact hin w hold
      · rw [Nat.zero_add] at hle
        exact lt_of_le_of_lt hle hlen
  strings := by
    intro hall x hx
    obtain ⟨⟨hlen, hnul⟩, hrest⟩ := List.forall_mem_cons.1 hall
    rcases List.mem_cons.1 hx with rfl | hx
    · refine stringAt_eq hlen hnul fun i hi => ?_
      exact bytes_strcpy _ p 0 s hi
    · have hne : x.1 ≠ p := fun heq => hp (heq ▸ mem_map_of_mem hx)
      rw [stringAt_strcpy_of_ne hlen hne]
      exact hc.strings hrest x hx

/-- The local variable `q` of a string has the page of its copy. -/
def Has (new : List (ℕ × CString)) (q : Option ℕ) (x : Param) : Prop :=
  q = none ∧ x.1 = none ∨ ∃ p s, q = some p ∧ x.1 = some s ∧ (p, s) ∈ new

/-- The pages that the local variables have, and what is in them, after all blocks. -/
structure Outcome (ps : List (ℕ × CString)) (l : List Param) (r : Heap × List (Option ℕ) × Bool)
    (new : List (ℕ × CString)) : Prop where
  copied : Copied (new.reverse ++ ps) r.1
  pages : r.2.1.filterMap id = new.map Prod.fst
  strings : new.map Prod.snd = copiedStrings l
  nodup : ((new.reverse ++ ps).map Prod.fst).Nodup
  /-- Without a failure each variable has the page of its string. -/
  each : r.2.2 = true → Forall₂ (Has new) r.2.1 l

lemma copyParams_spec (hc : Copied ps h) (l : List Param)
    (hl : (l.filterMap Prod.snd ++ ps.map Prod.fst).Nodup) :
    ∃ new, Outcome ps l (copyParams h l) new := by
  fun_induction copyParams h l generalizing ps with
  | case1 h => exact ⟨[], hc, rfl, rfl, hl, fun _ => .nil⟩
  | case2 h page l h' qs ok heq ih =>
    have hl' : (l.filterMap Prod.snd ++ ps.map Prod.fst).Nodup := by
      refine hl.sublist (List.Sublist.append_right ?_ _)
      exact (sublist_cons_self _ l).filterMap _
    obtain ⟨new, hnew⟩ := ih hc hl'
    rw [heq] at hnew
    refine ⟨new, hnew.copied, hnew.pages, hnew.strings, hnew.nodup, fun hok => ?_⟩
    exact .cons (.inl ⟨rfl, rfl⟩) (hnew.each hok)
  | case3 h s l => exact ⟨[], hc, rfl, rfl, (List.nodup_append.1 hl).2.1, nofun⟩
  | case4 h s p l h' qs ok heq ih =>
    have hl' : (p :: (l.filterMap Prod.snd ++ ps.map Prod.fst)).Nodup := hl
    have hp : p ∉ ps.map Prod.fst := fun hmem =>
      (List.nodup_cons.1 hl').1 (mem_append_right _ hmem)
    obtain ⟨new, hnew⟩ := ih (hc.strcpy hp s) (List.perm_middle.nodup_iff.2 hl')
    rw [heq] at hnew
    refine ⟨(p, s) :: new, ?_, ?_, ?_, ?_, fun hok => ?_⟩
    · simpa using hnew.copied
    · exact congrArg (p :: ·) hnew.pages
    · exact congrArg (s :: ·) hnew.strings
    · simpa using hnew.nodup
    · refine .cons (.inr ⟨p, s, rfl, rfl, mem_cons_self⟩) ((hnew.each hok).imp ?_)
      rintro q x (hnone | ⟨p', s', hq, hx, hmem⟩)
      · exact .inl hnone
      · exact .inr ⟨p', s', hq, hx, mem_cons_of_mem _ hmem⟩

lemma mem_of_mem_copiedStrings {l : List Param} (hs : s ∈ copiedStrings l) :
    some s ∈ l.map Prod.fst := by
  fun_induction copiedStrings l with
  | case1 => simp at hs
  | case2 page l ih => exact mem_cons_of_mem _ (ih hs)
  | case3 => simp at hs
  | case4 s' p l ih =>
    rcases List.mem_cons.1 hs with rfl | hs
    · exact mem_cons_self
    · exact mem_cons_of_mem _ (ih hs)

section

variable {pages : Pages} {a : Params} {qs : List (Option ℕ)} {ok : Bool} {new : List (ℕ × CString)}

lemma Outcome.safe_iff (hnew : Outcome [] (a.strings pages) (h, qs, ok) new) {ret : ℤ}
    {mounted : Option Params}
    (hmounted : (∀ x ∈ new, x.2.length < pageSize) → ∀ b ∈ mounted, b = a) :
    Safe a ⟨outFree h qs, ret, mounted⟩ ↔
      ∀ s ∈ copiedStrings (a.strings pages), s.length < pageSize := by
  have hc := hnew.copied
  have hnodup := hnew.nodup
  have hpages := hnew.pages
  dsimp only at hc hpages
  rw [append_nil] at hc hnodup
  have hshort : (∀ x ∈ new.reverse, x.2.length < pageSize) ↔
      ∀ s ∈ copiedStrings (a.strings pages), s.length < pageSize := by
    rw [← hnew.strings, forall_mem_map]
    simp
  rw [← hshort]
  constructor
  · intro hsafe
    exact hc.inside.1 fun w hw => (hsafe.inside w hw).2
  · intro hlen
    refine ⟨fun w hw => ⟨hc.pages w hw, hc.inside.2 hlen w hw⟩, ?_, ?_, fun p => ?_⟩
    · exact hmounted fun x hx => hlen x (List.mem_reverse.2 hx)
    · exact hc.allocated ▸ hnodup
    · simp only [outFree, hc.freed, nil_append, hc.allocated, hpages]
      exact ((new.reverse_perm.map Prod.fst).count_eq p).symm

lemma Outcome.read (hnew : Outcome [] (a.strings pages) (h, qs, true) new) (ha : a.Terminated)
    (hlen : ∀ x ∈ new, x.2.length < pageSize) :
    qs.map (Option.map h.stringAt) = [a.devName, a.type, a.data] := by
  have hread : ∀ p s, (p, s) ∈ new → h.stringAt p = s := by
    intro p s hmem
    refine hnew.copied.strings (fun x hx => ?_) (p, s) (by simpa using hmem)
    have hx' : x ∈ new := by simpa using hx
    refine ⟨hlen x hx', ha x.2 (mem_of_mem_copiedStrings (l := a.strings pages) ?_)⟩
    rw [← hnew.strings]
    exact mem_map_of_mem hx'
  have heq : ∀ {qs l}, Forall₂ (Has new) qs l →
      qs.map (Option.map h.stringAt) = l.map Prod.fst := by
    intro qs l hall
    induction hall with
    | nil => rfl
    | cons hx _ ih =>
      rw [map_cons, map_cons, ih]
      rcases hx with ⟨rfl, hx⟩ | ⟨p, s, rfl, hx, hmem⟩
      · rw [hx, Option.map_none]
      · rw [hx, Option.map_some, hread p s hmem]
  exact heq (hnew.each rfl)

end

/-- A call is safe exactly if the strings that it copies fit into a page. -/
theorem safe_mount_iff (bytes : ℕ → Char) (pages : Pages) (a : Params) (ha : a.Terminated)
    (ret : ℤ) : Safe a (sysSafeMount (Heap.init bytes) pages a ret) ↔
      ∀ s ∈ copiedStrings (a.strings pages), s.length < pageSize := by
  have hpages : ((a.strings pages).filterMap Prod.snd ++
      (List.map Prod.fst ([] : List (ℕ × CString)))).Nodup := by
    rw [map_nil, append_nil]
    exact pages.distinct
  obtain ⟨new, hnew⟩ := copyParams_spec (copied_init bytes) (a.strings pages) hpages
  rw [sysSafeMount]
  split
  next h devName type data heq =>
    rw [heq] at hnew
    refine hnew.safe_iff fun hlen b hb => ?_
    obtain rfl := Option.some.inj hb
    have hread := hnew.read ha hlen
    simp only [map_cons, map_nil, List.cons.injEq, and_true] at hread
    rw [hread.1, hread.2.1, hread.2.2]
  next h qs ok _ heq =>
    rw [heq] at hnew
    exact hnew.safe_iff nofun

/-- A mount of an `ext3` on a device, where two pages are allocated. -/
def ext3Mount : Params := ⟨some "/dev/sda1".toList, 0x1000, some "ext3".toList, 0, none⟩

def twoPages : Pages := ⟨some 7, some 3, none, by decide⟩

theorem safe_mount_iff_ext3Mount :
    Safe ext3Mount (sysSafeMount (Heap.init fun _ => 'x') twoPages ext3Mount 0) := by
  have hterm : ext3Mount.Terminated := by
    intro s hs
    simp only [ext3Mount, mem_cons, Option.some.injEq, not_mem_nil, or_false, reduceCtorEq] at hs
    rcases hs with rfl | rfl <;> simp
  refine (safe_mount_iff _ twoPages ext3Mount hterm 0).2 fun s hs => ?_
  simp only [Params.strings, ext3Mount, twoPages, copiedStrings, mem_cons, not_mem_nil,
    or_false] at hs
  rcases hs with rfl | rfl <;> simp [pageSize]

lemma stores_devName_only (h : Heap) (s : CString) :
    (sysSafeMount h twoPages ⟨some s, 0x1000, none, 0, none⟩ 0).heap.stores =
      (strcpy { h with allocated := 7 :: h.allocated } 7 0 s).stores := rfl

/-- The NUL of a name with the length of a page is stored behind the page. -/
theorem page_long_name_overflows : ⟨7, pageSize⟩ ∈ (sysSafeMount (Heap.init fun _ => 'x') twoPages
      ⟨some (List.replicate pageSize 'a'), 0x1000, none, 0, none⟩ 0).heap.stores := by
  rw [stores_devName_only, mem_stores_strcpy, length_replicate, Nat.zero_add]
  exact .inr ⟨rfl, Nat.zero_le _, Nat.le_refl _⟩

end LklPort.Mount.SafeMount
