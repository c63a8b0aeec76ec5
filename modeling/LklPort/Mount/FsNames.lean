import Mathlib.Tactic.Common

/-!
# The names of the block-device file systems

`lkl_mount` tries every file system that needs a device. It takes their names from the text
that `get_filesystem_list` writes into a page, one line for each registered type, and
`get_fs_names` rewrites that page in place: the reader is always ahead of the writer.
-/

namespace LklPort.Mount

open List

/-- A string of C, without its NUL. -/
abbrev CString := List Char

/-- A `struct file_system_type`, whose name is an unbroken line of text. -/
structure FsType where
  name : CString
  /-- `FS_REQUIRES_DEV`. -/
  requiresDev : Bool
  /-- `FS_HAS_SUBTYPE`. -/
  hasSubtype : Bool
  ne_nil : name ≠ []
  line : ∀ c ∈ name, c ≠ '\n' ∧ c ≠ '\x00'

def pageSize : ℕ := 4096

/-! ### The list of file systems -/

/-- The line of a file system, `"%s\t%s\n"`. -/
def FsType.render (t : FsType) : CString :=
  (if t.requiresDev then [] else "nodev".toList) ++ '\t' :: t.name ++ ['\n']

/-- What `get_filesystem_list` writes when `len` bytes are there already. -/
def getFilesystemList : List FsType → ℕ → CString
  | [], _ => []
  | t :: ts, len =>
    if len < pageSize - 80 then t.render ++ getFilesystemList ts (len + t.render.length) else []

/-- The file systems that get a line. -/
def listed : List FsType → ℕ → List FsType
  | [], _ => []
  | t :: ts, len =>
    if len < pageSize - 80 then t :: listed ts (len + t.render.length) else []

lemma getFilesystemList_eq (ts : List FsType) (len : ℕ) :
    getFilesystemList ts len = (listed ts len).flatMap FsType.render := by
  induction ts generalizing len with
  | nil => rfl
  | cons _ _ ih =>
    rw [getFilesystemList, listed]
    split_ifs
    · rw [ih, flatMap_cons]
    · rfl

lemma listed_isPrefix (ts : List FsType) (len : ℕ) : listed ts len <+: ts := by
  induction ts generalizing len with
  | nil => exact prefix_rfl
  | cons t _ ih =>
    rw [listed]
    split_ifs
    · exact prefix_cons_inj t |>.2 (ih _)
    · exact nil_prefix

/-! ### Rewriting the page -/

/-- `strchr(page + p, c)`, as an index. -/
def strchr (page : CString) (p : ℕ) (c : Char) : Option ℕ :=
  let l := (page.drop p).takeWhile (· ≠ '\x00')
  if c ∈ l then some (p + l.idxOf c) else none

/-- `while ((*s++ = *p++) != '\n');`, with the page and `s` after it. -/
def copyLine (page : CString) (s p : ℕ) : CString × ℕ :=
  if hp : p < page.length then
    let c := page[p]
    if c = '\n' then (page.set s c, s + 1) else copyLine (page.set s c) (s + 1) (p + 1)
  else (page, s)
termination_by page.length - p
decreasing_by
  rw [List.length_set]
  omega

lemma length_copyLine (page : CString) (s p : ℕ) : (copyLine page s p).1.length = page.length := by
  fun_induction copyLine page s p with
  | case1 page s p hp c hc => simp
  | case2 page s p hp c hc ih => simpa using ih
  | case3 page s p hp => rfl

variable {page : CString} {p : ℕ} {registered : List FsType}

lemma strchr_lt {n : ℕ} {c : Char} (h : strchr page p c = some n) : p ≤ n ∧ n < page.length := by
  simp only [strchr] at h
  split_ifs at h with hc
  have hidx := List.idxOf_lt_length_iff.mpr hc
  have hle := List.Sublist.length_le (takeWhile_sublist (l := page.drop p) (· ≠ '\x00'))
  rw [length_drop] at hle
  cases h
  omega

/-- One round of the loop of `get_fs_names`, at a line that starts at `p`. -/
def scanLine (page : CString) (s p : ℕ) : CString × ℕ :=
  if page.getD p '\x00' = '\t' then
    let (page, s) := copyLine page s (p + 1)
    (page.set (s - 1) '\x00', s)
  else (page, s)

lemma length_scanLine (page : CString) (s p : ℕ) : (scanLine page s p).1.length = page.length := by
  rw [scanLine]
  split_ifs
  · simp [length_copyLine]
  · rfl

/-- The loop of `get_fs_names`. The end of the line is found before the line is moved. -/
def scanLines (page : CString) (s p : ℕ) : CString × ℕ :=
  match h : strchr page p '\n' with
  | none => scanLine page s p
  | some next => scanLines (scanLine page s p).1 (scanLine page s p).2 (next + 1)
termination_by page.length - p
decreasing_by
  have := strchr_lt h
  rw [length_scanLine]
  omega

lemma scanLines_none {s : ℕ} (h : strchr page p '\n' = none) :
    scanLines page s p = scanLine page s p := by
  rw [scanLines]
  split
  · rfl
  · simp_all

lemma scanLines_some {s next : ℕ} (h : strchr page p '\n' = some next) :
    scanLines page s p = scanLines (scanLine page s p).1 (scanLine page s p).2 (next + 1) := by
  rw [scanLines]
  split
  · simp_all
  · simp_all

/-- `get_fs_names`, on a page of any content. -/
def getFsNames (registered : List FsType) (page : CString) : CString :=
  let text := getFilesystemList registered 0
  let page := (text ++ page.drop text.length).set text.length '\x00'
  let (page, s) := scanLines page 0 0
  page.set s '\x00'

/-- The strings that the loop of `lkl_mount` visits: `for (p = fs_names; *p; p += strlen(p)+1)`. -/
def visited (page : CString) : List CString :=
  if page.headD '\x00' = '\x00' then []
  else
    let name := page.takeWhile (· ≠ '\x00')
    name :: visited (page.drop (name.length + 1))
termination_by page.length
decreasing_by
  cases page with
  | nil => contradiction
  | cons =>
    rw [List.length_drop, List.length_cons]
    omega

/-! ### What is left in the page -/

lemma copyLine_eq (out rest : CString) {gap name : CString} (hgap : gap ≠ [])
    (hname : ∀ c ∈ name, c ≠ '\n') : ∃ gap' : CString, gap'.length = gap.length ∧
      copyLine (out ++ (gap ++ (name ++ '\n' :: rest))) out.length (out.length + gap.length) =
        (out ++ (name ++ '\n' :: (gap' ++ rest)), out.length + name.length + 1) := by
  -- the gap moves along the line, one character at a time
  induction name generalizing out gap with
  | nil =>
    obtain ⟨g, gs, rfl⟩ := exists_cons_of_ne_nil hgap
    refine ⟨gs ++ ['\n'], by simp, ?_⟩
    rw [copyLine]
    simp
  | cons c _ ih =>
    obtain ⟨g, gs, rfl⟩ := exists_cons_of_ne_nil hgap
    have hc : c ≠ '\n' := hname c (by simp)
    have hgs : gs ++ [c] ≠ [] := by simp
    obtain ⟨gap', hgap', heq⟩ := ih (out ++ [c]) hgs fun x hx => hname x (by simp [hx])
    refine ⟨gap', by simpa using hgap', ?_⟩
    rw [copyLine]
    simp [hc] at heq ⊢
    convert heq using 2 <;> omega

lemma FsType.render_eq (t : FsType) :
    ∃ l, t.render = l ++ ['\n'] ∧ ∀ c ∈ l, c ≠ '\n' ∧ c ≠ '\x00' := by
  have hnodev : ∀ c ∈ "nodev".toList, c ≠ '\n' ∧ c ≠ '\x00' := by simp
  refine ⟨(if t.requiresDev then [] else "nodev".toList) ++ '\t' :: t.name, rfl, ?_⟩
  intro c hc
  rcases List.mem_append.mp hc with hc | hc
  · split_ifs at hc
    · simp at hc
    · exact hnodev c hc
  · rcases List.mem_cons.mp hc with rfl | hc
    · decide
    · exact t.line c hc

lemma strchr_line {l rest : CString} (hpage : page.drop p = l ++ '\n' :: rest)
    (hl : ∀ c ∈ l, c ≠ '\n' ∧ c ≠ '\x00') : strchr page p '\n' = some (p + l.length) := by
  have htake : (l ++ '\n' :: rest).takeWhile (· ≠ '\x00') =
      l ++ '\n' :: rest.takeWhile (· ≠ '\x00') := by
    rw [takeWhile_append_of_pos (by simpa using fun c hc => (hl c hc).2)]
    simp
  have hnot : '\n' ∉ l := fun hmem => (hl _ hmem).1 rfl
  simp only [strchr, hpage, htake]
  simp [idxOf_append, hnot]

lemma strchr_end {rest : CString} (hpage : page.drop p = '\x00' :: rest) :
    strchr page p '\n' = none := by
  simp [strchr, hpage]

/-- What the line of a file system leaves behind: its name, if it needs a device. -/
def FsType.entry (t : FsType) : CString := if t.requiresDev then t.name ++ ['\x00'] else []

attribute [local simp] FsType.entry

lemma scanLine_eq (out gap rest : CString) (t : FsType) : ∃ gap' : CString,
      (out ++ t.entry).length + gap'.length = out.length + gap.length + t.render.length ∧
      scanLine (out ++ (gap ++ (t.render ++ rest))) out.length (out.length + gap.length) =
        ((out ++ t.entry) ++ (gap' ++ rest), (out ++ t.entry).length) := by
  by_cases hdev : t.requiresDev = true
  · have hrender : t.render = '\t' :: (t.name ++ ['\n']) := by simp [FsType.render, hdev]
    have hgap : gap ++ ['\t'] ≠ [] := by simp
    obtain ⟨gap', hgap', heq⟩ :=
      copyLine_eq out rest hgap fun c hc => (t.line c hc).1
    simp only [append_assoc, cons_append, nil_append, length_append,
      length_cons, length_nil, ← Nat.add_assoc, Nat.add_zero] at hgap' heq
    refine ⟨gap', ?_, ?_⟩
    · simp [hrender, hdev]
      omega
    · have htab : (out ++ (gap ++ '\t' :: (t.name ++ '\n' :: rest))).getD
          (out.length + gap.length) '\x00' = '\t' := by
        simp
      simp only [hrender, cons_append, append_assoc, nil_append, scanLine, htab,
        if_true, heq, FsType.entry, hdev]
      simp [Nat.add_assoc]
  · refine ⟨gap ++ t.render, ?_, ?_⟩
    · simp [hdev]
      omega
    · simp [scanLine, FsType.render, hdev]

lemma scanLines_eq (out gap tail : CString) (ts : List FsType) : ∃ junk : CString, junk ≠ [] ∧
      scanLines (out ++ (gap ++ (ts.flatMap FsType.render ++ '\x00' :: tail))) out.length
          (out.length + gap.length) =
        ((out ++ ts.flatMap FsType.entry) ++ junk, (out ++ ts.flatMap FsType.entry).length) := by
  induction ts generalizing out gap with
  | nil =>
    refine ⟨gap ++ '\x00' :: tail, by simp, ?_⟩
    have hdrop : (out ++ (gap ++ '\x00' :: tail)).drop (out.length + gap.length) =
        '\x00' :: tail := by simp
    simp only [flatMap_nil, nil_append, append_nil]
    rw [scanLines_none (strchr_end hdrop)]
    simp [scanLine]
  | cons t ts ih =>
    obtain ⟨l, hrender, hl⟩ := t.render_eq
    obtain ⟨gap', hgap', hline⟩ :=
      scanLine_eq out gap (ts.flatMap FsType.render ++ '\x00' :: tail) t
    obtain ⟨junk, hjunk, heq⟩ := ih (out ++ t.entry) gap'
    refine ⟨junk, hjunk, ?_⟩
    have hdrop : (out ++ (gap ++ (t.render ++ (ts.flatMap FsType.render ++ '\x00' :: tail)))).drop
        (out.length + gap.length) = l ++ '\n' :: (ts.flatMap FsType.render ++ '\x00' :: tail) := by
      simp [hrender]
    have hnext : out.length + gap.length + l.length + 1 =
        (out ++ t.entry).length + gap'.length := by
      rw [hgap', hrender, length_append, length_singleton]
      omega
    rw [flatMap_cons, append_assoc t.render, scanLines_some (strchr_line hdrop hl), hline,
      hnext, heq]
    simp

lemma visited_eq (ts : List FsType) (junk : CString) :
    visited (ts.flatMap FsType.entry ++ '\x00' :: junk) =
      (ts.filter (·.requiresDev)).map (·.name) := by
  induction ts with
  | nil =>
    rw [visited]
    simp
  | cons t ts ih =>
    by_cases hdev : t.requiresDev = true
    · obtain ⟨c, cs, hname⟩ := exists_cons_of_ne_nil t.ne_nil
      have hc : c ≠ '\x00' := (t.line c (by simp [hname])).2
      have htake : (t.name ++ '\x00' :: (ts.flatMap FsType.entry ++ '\x00' :: junk)).takeWhile
          (· ≠ '\x00') = t.name := by
        rw [takeWhile_append_of_pos (by simpa using fun c hc => (t.line c hc).2)]
        simp
      have hhead : (t.name ++ '\x00' :: (ts.flatMap FsType.entry ++ '\x00' :: junk)).headD '\x00' =
          c := by simp [hname]
      have hentry : (t :: ts).flatMap FsType.entry ++ '\x00' :: junk =
          t.name ++ '\x00' :: (ts.flatMap FsType.entry ++ '\x00' :: junk) := by
        simp [hdev]
      rw [hentry, visited, hhead, if_neg hc]
      simp only [htake]
      simp [hdev, ih]
    · simp [hdev, ih]

/-- The names that `lkl_mount` tries: those of the listed file systems that need a device. -/
def fsNames (registered : List FsType) : List CString :=
  ((listed registered 0).filter (·.requiresDev)).map (·.name)

section

variable (hfits : (getFilesystemList registered 0).length < page.length)

include hfits

lemma getFsNames_eq : ∃ junk, getFsNames registered page =
      (listed registered 0).flatMap FsType.entry ++ '\x00' :: junk := by
  obtain ⟨c, rest, hrest⟩ : ∃ c rest,
      page.drop (getFilesystemList registered 0).length = c :: rest :=
    exists_cons_of_ne_nil (by simp; omega)
  obtain ⟨junk, hjunk, heq⟩ := scanLines_eq [] [] rest (listed registered 0)
  obtain ⟨d, junk, rfl⟩ := exists_cons_of_ne_nil hjunk
  simp only [nil_append, length_nil, Nat.add_zero, ← getFilesystemList_eq] at heq
  exact ⟨junk, by simp [getFsNames, hrest, heq]⟩

/-- `get_fs_names` finds exactly the block-device file systems, if their list fits the page. -/
theorem visited_getFsNames : visited (getFsNames registered page) = fsNames registered := by
  obtain ⟨junk, heq⟩ := getFsNames_eq hfits
  rw [heq, visited_eq, fsNames]

end

/-! ### The file systems that are cut off -/

lemma length_scanLines (page : CString) (s p : ℕ) :
    (scanLines page s p).1.length = page.length := by
  fun_induction scanLines page s p with
  | case1 page s p h => exact length_scanLine page s p
  | case2 page s p next h ih => rw [ih, length_scanLine]

lemma length_getFsNames (hfits : (getFilesystemList registered 0).length < page.length) :
    (getFsNames registered page).length = page.length := by
  simp only [getFsNames, length_set, length_scanLines, length_append, length_drop]
  omega

/-- The types behind the last one that gets a line. -/
def cutOff (registered : List FsType) : List FsType :=
  registered.drop (listed registered 0).length

lemma listed_append_cutOff (registered : List FsType) :
    listed registered 0 ++ cutOff registered = registered := by
  obtain ⟨rest, hrest⟩ := listed_isPrefix registered 0
  have hdrop : cutOff registered = rest := by
    rw [cutOff]
    nth_rewrite 2 [← hrest]
    exact drop_left
  rw [hdrop, hrest]

lemma listed_eq_self (ts : List FsType) (len : ℕ) (h : ∀ pre t post, ts = pre ++ t :: post →
      len + (pre.flatMap FsType.render).length < pageSize - 80) : listed ts len = ts := by
  induction ts generalizing len with
  | nil => rfl
  | cons t ts ih =>
    have hlen : len < pageSize - 80 := by simpa using h [] t ts rfl
    rw [listed, if_pos hlen, ih]
    intro pre t' post hts
    have hpre := h (t :: pre) t' post (by rw [hts, cons_append])
    rw [flatMap_cons, length_append] at hpre
    omega

/-- `get_fs_names` leaves the names of the block-device file systems that have a line in the page,
in the order of their registration, and `lkl_mount` visits these. It misses the types that
`get_filesystem_list` cuts off, which needs lines of `PAGE_SIZE - 80` bytes before them. -/
theorem get_fs_names_law (registered : List FsType) (page : CString)
    (hpage : page.length = pageSize) (hfits : (getFilesystemList registered 0).length < pageSize) :
    (getFsNames registered page).length = pageSize ∧
    (∃ rest, getFsNames registered page =
      ((listed registered 0).filter (·.requiresDev)).flatMap (fun t => t.name ++ ['\x00']) ++
        '\x00' :: rest) ∧
    (visited (getFsNames registered page) = (registered.filter (·.requiresDev)).map (·.name) ↔
      ∀ t ∈ cutOff registered, t.requiresDev = false) ∧
    ((∀ pre t post, registered = pre ++ t :: post →
      (pre.flatMap FsType.render).length < pageSize - 80) → cutOff registered = []) := by
  rw [← hpage] at hfits
  refine ⟨(length_getFsNames hfits).trans hpage, ?_, ?_, fun hlines => ?_⟩
  · obtain ⟨rest, heq⟩ := getFsNames_eq hfits
    refine ⟨rest, ?_⟩
    rw [heq]
    congr 1
    induction listed registered 0 with
    | nil => rfl
    | cons _ _ ih =>
      rw [flatMap_cons, ih, FsType.entry]
      split_ifs with hdev <;> simp [hdev]
  · have hsplit : registered.filter (·.requiresDev) =
        (listed registered 0).filter (·.requiresDev) ++
          (cutOff registered).filter (·.requiresDev) := by
      rw [← filter_append, listed_append_cutOff]
    rw [visited_getFsNames hfits, fsNames, hsplit, map_append, self_eq_append_right,
      map_eq_nil_iff, filter_eq_nil_iff]
    simp
  · rw [cutOff, listed_eq_self registered 0 (by simpa using hlines), drop_length]

/-- A file system that needs a device, with a name of `a`s. -/
def deviceFs (n : ℕ) : FsType where
  name := List.replicate (n + 1) 'a'
  requiresDev := true
  hasSubtype := false
  ne_nil := by simp
  line := by
    intro c hc
    rw [List.eq_of_mem_replicate hc]
    simp

lemma length_render_deviceFs (n : ℕ) : (deviceFs n).render.length = n + 3 := by
  simp [FsType.render, deviceFs]

/-- Three types, the second of which needs no device. -/
def mixedTypes : List FsType :=
  [deviceFs 3, { deviceFs 1 with requiresDev := false }, deviceFs 2]

theorem get_fs_names_law_mixedTypes :
    visited (getFsNames mixedTypes (List.replicate pageSize 'x')) =
      [(deviceFs 3).name, (deviceFs 2).name] := by
  have hlaw := get_fs_names_law mixedTypes (List.replicate pageSize 'x')
    length_replicate (by rw [getFilesystemList_eq]; decide)
  exact hlaw.2.2.1.2 (by decide)

/-- The lines of both types fit the page, but the second type is not found. -/
theorem get_fs_names_cuts_off :
    ([deviceFs 4020, deviceFs 0].flatMap FsType.render).length < pageSize ∧
      visited (getFsNames [deviceFs 4020, deviceFs 0] (List.replicate pageSize 'x')) =
        [(deviceFs 4020).name] := by
  have hlisted : listed [deviceFs 4020, deviceFs 0] 0 = [deviceFs 4020] := by
    rw [listed, if_pos (by decide), length_render_deviceFs, listed, if_neg (by decide)]
  have hfits : (getFilesystemList [deviceFs 4020, deviceFs 0] 0).length <
      (List.replicate pageSize 'x').length := by
    rw [getFilesystemList_eq, hlisted, flatMap_singleton, length_render_deviceFs, length_replicate]
    decide
  refine ⟨?_, ?_⟩
  · rw [flatMap_cons, flatMap_singleton, length_append, length_render_deviceFs,
      length_render_deviceFs]
    decide
  · rw [visited_getFsNames hfits, fsNames, hlisted]
    rfl

end LklPort.Mount
