import Mathlib.Data.Fintype.Basic
import Mathlib.Data.Nat.Bitwise
import LklPort.Program.Basic

/-!
# The buddy allocator

`__rmqueue` and `__free_one_page` of `mm/page_alloc.c`, with a page given by its page frame number.
A free list is a list of the first pages of its blocks, and `list_del` fails on a page that is on
no list. The functions also fail on a `BUG_ON` and where they would use an order for which there is
no free area.
-/

namespace LklPort.PageAlloc

open Program Function

def maxOrder : ℕ := 11

def pageblockOrder : ℕ := maxOrder - 1

/-- The `MIGRATE_*` types. -/
inductive MigrateType where
  | unmovable
  | reclaimable
  | movable
  | reserve
  | isolate
deriving DecidableEq

instance : Fintype MigrateType where
  elems := {.unmovable, .reclaimable, .movable, .reserve, .isolate}
  complete mt := by cases mt <;> decide

/-- What the allocator reads of a `struct page`. -/
structure Page where
  /-- `page_zone_id`. -/
  zoneId : ℕ
  /-- `PG_buddy`. -/
  buddy : Bool
  /-- `page->private`. -/
  priv : ℕ

/-- A zone, with a `mem_map` that has all pages of each block of the largest order that the zone
has a page of. -/
structure Zone where
  id : ℕ
  startPfn : ℕ
  spannedPages : ℕ
  mapStart : ℕ
  mapEnd : ℕ
  mapStart_le : mapStart ≤ startPfn
  le_mapEnd : startPfn + spannedPages ≤ mapEnd
  dvd_mapStart : 2 ^ (maxOrder - 1) ∣ mapStart
  dvd_mapEnd : 2 ^ (maxOrder - 1) ∣ mapEnd

/-- The pages in memory, the free areas of the zone, and the types of its pageblocks. -/
structure State where
  page : ℕ → Page
  freeList : ℕ → MigrateType → List ℕ
  nrFree : ℕ → ℕ
  pageblock : ℕ → MigrateType

/-! ### Pages and lists -/

/-- A field of a page is written. -/
def State.setPage (s : State) (page : ℕ) (f : Page → Page) : State :=
  { s with page := update s.page page (f (s.page page)) }

/-- A free list is changed. -/
def State.setList (s : State) (order : ℕ) (mt : MigrateType) (f : List ℕ → List ℕ) : State :=
  let lists := update (s.freeList order) mt (f (s.freeList order mt))
  { s with freeList := update s.freeList order lists }

/-- The page is taken off the list it is on. -/
def State.unlink (s : State) (page : ℕ) : State :=
  { s with freeList := fun order mt => (s.freeList order mt).erase page }

def State.setNrFree (s : State) (order : ℕ) (f : ℕ → ℕ) : State :=
  { s with nrFree := update s.nrFree order (f (s.nrFree order)) }

def setPageOrder (page order : ℕ) : Program State Unit :=
  write fun s => s.setPage page fun p => { p with priv := order, buddy := true }

def rmvPageOrder (page : ℕ) : Program State Unit :=
  write fun s => s.setPage page fun p => { p with buddy := false, priv := 0 }

/-- `list_add` to a list of a free area. -/
def listAdd (page order : ℕ) (mt : MigrateType) : Program State Unit :=
  if order < maxOrder then write fun s => s.setList order mt (page :: ·) else fail

def listAddTail (page order : ℕ) (mt : MigrateType) : Program State Unit :=
  if order < maxOrder then write fun s => s.setList order mt (· ++ [page]) else fail

/-- The page is on some list. -/
def State.Listed (s : State) (page : ℕ) : Prop :=
  ∃ order < maxOrder, ∃ mt, page ∈ s.freeList order mt

instance (s : State) (page : ℕ) : Decidable (s.Listed page) :=
  inferInstanceAs (Decidable (∃ order < maxOrder, ∃ mt, page ∈ s.freeList order mt))

def listDel (page : ℕ) : Program State Unit := do
  let s ← read
  if s.Listed page then write fun s => s.unlink page else fail

/-- `nr_free++`. -/
def incNrFree (order : ℕ) : Program State Unit := write fun s => s.setNrFree order (· + 1)

/-- `nr_free--`. -/
def decNrFree (order : ℕ) : Program State Unit := write fun s => s.setNrFree order (· - 1)

/-! ### Freeing -/

def pageFindBuddy (page pageIdx order : ℕ) : ℕ := page + (pageIdx ^^^ (1 <<< order)) - pageIdx

def findCombinedIndex (pageIdx order : ℕ) : ℕ := pageIdx.ldiff (1 <<< order)

def pageIsBuddy (s : State) (page buddy order : ℕ) : Bool :=
  decide ((s.page page).zoneId = (s.page buddy).zoneId) &&
    ((s.page buddy).buddy && decide ((s.page buddy).priv = order))

/-- The variables of `__free_one_page`. -/
structure Merge where
  page : ℕ
  pageIdx : ℕ
  order : ℕ

/-- The loop of `__free_one_page`. -/
def mergeBody (x : Merge) : Program State (Merge ⊕ Merge) :=
  if x.order < maxOrder - 1 then do
    let buddy := pageFindBuddy x.page x.pageIdx x.order
    let s ← read
    if pageIsBuddy s x.page buddy x.order then do
      listDel buddy
      decNrFree x.order
      rmvPageOrder buddy
      let combinedIdx := findCombinedIndex x.pageIdx x.order
      return .inl ⟨x.page + combinedIdx - x.pageIdx, combinedIdx, x.order + 1⟩
    else return .inr x
  else return .inr x

/-- The buddy of the next-highest order is free. -/
def higherIsFree (s : State) (x : Merge) : Bool :=
  let combinedIdx := findCombinedIndex x.pageIdx x.order
  let higherPage := x.page + combinedIdx - x.pageIdx
  let higherBuddy := pageFindBuddy higherPage combinedIdx (x.order + 1)
  pageIsBuddy s higherPage higherBuddy (x.order + 1)

/-- The last part of `__free_one_page` adds the page to one end of its list. -/
def addFree (x : Merge) (mt : MigrateType) : Program State Unit := do
  let s ← read
  if x.order < maxOrder - 1 ∧ higherIsFree s x = true then listAddTail x.page x.order mt
  else listAdd x.page x.order mt

def freeOnePage (page order : ℕ) (mt : MigrateType) : Program State Unit := do
  let pageIdx := page &&& ((1 <<< maxOrder) - 1)
  let x ← loop mergeBody maxOrder ⟨page, pageIdx, order⟩
  setPageOrder x.page x.order
  addFree x mt
  incNrFree x.order

/-! ### Splitting -/

/-- `expand`, down from the order `high`. -/
def expand (page low : ℕ) (mt : MigrateType) : ℕ → Program State Unit
  | 0 => return
  | high + 1 =>
    if high + 1 > low then do
      let size := 1 <<< high
      listAdd (page + size) high mt
      incNrFree high
      setPageOrder (page + size) high
      expand page low mt high
    else return

/-- The loop of `__rmqueue_smallest`. -/
def takeSmallest (order : ℕ) (mt : MigrateType) (currentOrder : ℕ) : Program State (Option ℕ) := do
  let s ← read
  match s.freeList currentOrder mt with
  | [] => return none
  | page :: _ => do
    listDel page
    rmvPageOrder page
    decNrFree currentOrder
    expand page order mt currentOrder
    return some page

/-- The orders from the given one to the largest. -/
def ordersFrom (order : ℕ) : List ℕ := List.range' order (maxOrder - order)

def rmqueueSmallest (order : ℕ) (mt : MigrateType) : Program State (Option ℕ) :=
  (ordersFrom order).findSomeM? (takeSmallest order mt)

/-! ### Falling back to other lists -/

/-- The rows of `fallbacks`. What is not given in the source is 0. -/
def fallbacks : MigrateType → List MigrateType
  | .unmovable => [.reclaimable, .movable, .reserve, .unmovable]
  | .reclaimable => [.unmovable, .movable, .reserve, .unmovable]
  | .movable => [.reclaimable, .unmovable, .reserve, .unmovable]
  | .reserve => [.reserve, .reserve, .reserve, .unmovable]
  | .isolate => [.unmovable, .unmovable, .unmovable, .unmovable]

/-- The loop of `move_freepages`, with `page` and `pages_moved`. -/
def moveBody (endPage : ℕ) (mt : MigrateType) (x : ℕ × ℕ) : Program State ((ℕ × ℕ) ⊕ ℕ) :=
  if x.1 ≤ endPage then do
    let s ← read
    if (s.page x.1).buddy then do
      let order := (s.page x.1).priv
      listDel x.1
      listAdd x.1 order mt
      return .inl (x.1 + (1 <<< order), x.2 + (1 <<< order))
    else return .inl (x.1 + 1, x.2)
  else return .inr x.2

def moveFreepages (startPage endPage : ℕ) (mt : MigrateType) : Program State ℕ := do
  let s ← read
  if (s.page startPage).zoneId ≠ (s.page endPage).zoneId then fail
  else loop (moveBody endPage mt) (endPage + 2 - startPage) (startPage, 0)

def moveFreepagesBlock (Z : Zone) (page : ℕ) (mt : MigrateType) : Program State ℕ :=
  let startPfn := page.ldiff (2 ^ pageblockOrder - 1)
  let endPfn := startPfn + 2 ^ pageblockOrder - 1
  let startPage := if startPfn < Z.startPfn then page else startPfn
  if endPfn ≥ Z.startPfn + Z.spannedPages then return 0
  else moveFreepages startPage endPfn mt

/-- `set_pageblock_migratetype`, where `disabled` is `page_group_by_mobility_disabled`. -/
def setPageblockMigratetype (Z : Zone) (disabled : Bool) (page : ℕ) (mt : MigrateType) :
    Program State Unit :=
  let i := (page - Z.startPfn) >>> pageblockOrder
  let mt := if disabled then .unmovable else mt
  write fun s => { s with pageblock := update s.pageblock i mt }

/-- `change_pageblock_range` of so many pageblocks. -/
def changePageblockRange (Z : Zone) (disabled : Bool) (mt : MigrateType) :
    ℕ → ℕ → Program State Unit
  | 0, _ => return
  | nr + 1, page => do
    setPageblockMigratetype Z disabled page mt
    changePageblockRange Z disabled mt nr (page + 2 ^ pageblockOrder)

/-- The pageblock is claimed if over half of it is free. -/
def claimOwner (Z : Zone) (disabled : Bool) (start : MigrateType) (page pages : ℕ) :
    Program State Unit :=
  if pages ≥ 1 <<< (pageblockOrder - 1) ∨ disabled = true then
    setPageblockMigratetype Z disabled page start
  else return

/-- The part of `__rmqueue_fallback` that moves the free pages of a pageblock. The type of the
lists for the rest of the block is returned. -/
def claimBlock (Z : Zone) (disabled : Bool) (start mt : MigrateType) (currentOrder page : ℕ) :
    Program State MigrateType :=
  if currentOrder ≥ pageblockOrder >>> 1 ∨ start = .reclaimable ∨ disabled = true then do
    let pages ← moveFreepagesBlock Z page start
    claimOwner Z disabled start page pages
    return start
  else return mt

/-- The pageblocks of a large block change their type. -/
def takeOwnership (Z : Zone) (disabled : Bool) (start : MigrateType) (currentOrder page : ℕ) :
    Program State Unit :=
  if currentOrder ≥ pageblockOrder then
    changePageblockRange Z disabled start (1 <<< (currentOrder - pageblockOrder)) page
  else return

/-- The body of the two loops of `__rmqueue_fallback`. -/
def takeFallback (Z : Zone) (disabled : Bool) (order : ℕ) (start : MigrateType)
    (currentOrder : ℕ) (mt : MigrateType) : Program State (Option ℕ) :=
  if mt = .reserve then return none
  else do
    let s ← read
    match s.freeList currentOrder mt with
    | [] => return none
    | page :: _ => do
      decNrFree currentOrder
      let mt ← claimBlock Z disabled start mt currentOrder page
      listDel page
      rmvPageOrder page
      takeOwnership Z disabled start currentOrder page
      expand page order mt currentOrder
      return some page

def rmqueueFallback (Z : Zone) (disabled : Bool) (order : ℕ) (start : MigrateType) :
    Program State (Option ℕ) :=
  (ordersFrom order).reverse.findSomeM? fun currentOrder =>
    (fallbacks start).findSomeM? (takeFallback Z disabled order start currentOrder)

def rmqueue (Z : Zone) (disabled : Bool) (order : ℕ) (mt : MigrateType) :
    Program State (Option ℕ) := do
  match ← rmqueueSmallest order mt with
  | some page => return some page
  | none =>
    if mt = .reserve then return none
    else
      match ← rmqueueFallback Z disabled order mt with
      | some page => return some page
      | none => rmqueueSmallest order .reserve

end LklPort.PageAlloc
