import ProbableCause.Database.Files

/-!
# `Database.Stitch` — `find`, `match`, `chipMerge`, `add` and the check of `probableCause.py`

`add` stores the new pages as a chip of their own, looks for stored chips that share a page with it
(`match`, one hit per page, each chip at most once) and merges them into it one after the other
(`chipMerge`). The functions that only read the database are functions of it; the result of a listing
call may differ from call to call, so `match` takes one `Listing` per page.
-/

namespace ProbableCause

open Text Exits

variable (K : Constants)

/-! ## `find` -/

/-- The dictionary `find` returns. -/
structure Hit where
  chip : PyVal
  loc : PyVal
  deriving DecidableEq

/-- `for x in ignorelist: chips.remove(str(x))`. -/
def removeIgnored : List Str → List PyVal → Except Stop (List Str)
  | chips, [] => .ok chips
  | chips, x :: xs =>
    if pyStr x ∈ chips then removeIgnored (chips.erase (pyStr x)) xs
    else raise (.valueError "list.remove(x): x not in list")

/-- The inner loop of `find`, over the files of chip `c`. Comparing the empty list with a page asks
    the list for an `errorString`. -/
def findFile (db : Database) (page : ApproxPage K) (c : Str) : List Str → Except Stop (Option Hit)
  | [] => .ok none
  | f :: fs =>
    if ".txt".toList.isSuffixOf f then do
      match ← pageRead K db (.str c) (.str (f.take (f.length - 4))) with
      | none => raise .attributeError
      | some otherPage =>
        if otherPage.eq page then .ok (some ⟨otherPage.chip, otherPage.loc⟩)
        else findFile db page c fs
    else findFile db page c fs

/-- The outer loop of `find`, over the chips that are not ignored. -/
def findChip (os : Listing) (db : Database) (page : ApproxPage K) :
    List Str → Except Stop (Option Hit)
  | [] => .ok none
  | c :: cs => do
    match ← findFile K db page c (os.listdir db c) with
    | some hit => .ok (some hit)
    | none => findChip os db page cs

/-- `find(page, ignorelist)`; `none` stands for the empty list. -/
def find (os : Listing) (db : Database) (page : ApproxPage K) (ignorelist : List PyVal) :
    Except Stop (Option Hit) := do
  let chips ← removeIgnored (os.walk db) ignorelist
  findChip K os db page chips

/-! ## `match` -/

/-- One entry of the list `match` returns. -/
structure Match where
  chip : PyVal
  loc : PyVal
  offset : PyVal
  deriving DecidableEq

/-- The loop of `match` from page number `k` on, with the list `chips` grown so far. -/
def matchFrom (os : ℕ → Listing) (db : Database) :
    ℕ → List PyVal → List (ApproxPage K) → Except Stop (List Match)
  | _, _, [] => .ok []
  | k, chips, page :: pages => do
    match ← find K (os k) db page chips with
    | some m =>
      if m.chip ∉ chips then do
        let res ← matchFrom os db (k + 1) (chips ++ [m.chip]) pages
        .ok (⟨m.chip, m.loc, .int k⟩ :: res)
      else matchFrom os db (k + 1) chips pages
    | none => matchFrom os db (k + 1) chips pages

/-- `match(pages, newChip)`. -/
def matchPages (os : ℕ → Listing) (db : Database) (pages : List (ApproxPage K)) (newChip : PyVal) :
    Except Stop (List Match) :=
  matchFrom K os db 0 [newChip] pages

/-! ## `chipMerge` -/

/-- `pageMerge(page1, page2)`: the first page there is, as a fresh page. -/
def pageMerge : Option (ApproxPage K) → Option (ApproxPage K) →
    Except Stop (Option (ApproxPage K))
  | some page1, _ => (approxPage' K page1.errorString).map some
  | none, some page2 => (approxPage' K page2.errorString).map some
  | none, none => .ok none

/-- The first loop of `chipMerge`: the pages before the two locations, from the chip with the longer
    prefix. -/
def prefixPages (db : Database) (chip1 : PyVal) (l1 : ℤ) (chip2 : PyVal) (l2 : ℤ) :
    Except Stop (List (Option (ApproxPage K))) :=
  (List.range (max l1 l2).toNat).foldlM (fun pages (i : ℕ) =>
    if l1 < l2 then do
      let page ← pageRead K db chip2 (.int i)
      .ok (pages ++ [page])
    else if l2 < l1 then do
      let page ← pageRead K db chip1 (.int i)
      .ok (pages ++ [page])
    else .ok pages) []

/-- The second loop of `chipMerge`: the two chips page by page, from the two locations, as long as
    one of them has a page. Every round passes a file, so `fuel` bounds the number of rounds. -/
def mergeTail (db : Database) (chip1 chip2 : PyVal) :
    ℕ → ℤ → ℤ → Except Stop (List (Option (ApproxPage K)))
  | 0, _, _ => .error .outOfFuel
  | fuel + 1, l1, l2 => do
    let page1 ← pageRead K db chip1 (.int l1)
    let page2 ← pageRead K db chip2 (.int l2)
    if page1.isSome || page2.isSome then do
      let page ← pageMerge K page1 page2
      let pages ← mergeTail db chip1 chip2 fuel (l1 + 1) (l2 + 1)
      .ok (page :: pages)
    else .ok []

/-- The number of files of a chip. -/
def fileCount (db : Database) (chip : PyVal) : ℕ := ((db.lookup (pyStr chip)).getD ∅).keys.card

/-- The list `pages` that `chipMerge` builds from the two chips before it removes them. -/
def mergedPages (db : Database) (chip1 : PyVal) (l1 : ℤ) (chip2 : PyVal) (l2 : ℤ) :
    Except Stop (List (Option (ApproxPage K))) := do
  let pre ← prefixPages K db chip1 l1 chip2 l2
  let tail ← mergeTail K db chip1 chip2 (fileCount db chip1 + fileCount db chip2 + 1) l1 l2
  .ok (pre ++ tail)

def chipMerge (chip1 loc1 chip2 loc2 : PyVal) : Py ℕ := do
  let l1 ← ofExcept (pyInt loc1)
  let l2 ← ofExcept (pyInt loc2)
  let w ← get
  let pages ← ofExcept (mergedPages K w.db chip1 l1 chip2 l2)
  chipRemove chip1
  chipRemove chip2
  chipAdd pages

/-! ## `add` -/

/-- The correction `add` makes before its loop: when the first match is at offset `0`, its location is
    added to the offsets of the others. -/
def shiftOffsets : List Match → Except Stop (List Match)
  | [] => .ok []
  | m0 :: ms =>
    if m0.offset = .int 0 then do
      let ms' ← ms.mapM fun m => do
        let offset ← pyAdd m.offset m0.loc
        .ok { m with offset := offset }
      .ok (m0 :: ms')
    else .ok (m0 :: ms)

/-- The loop of `add`: merge the matched chips into `chip`, one after the other. -/
def mergeLoop (chip : PyVal) (ms : List Match) : Py PyVal :=
  ms.foldlM (fun chip m => do
    let newChip ← chipMerge K chip m.offset m.chip m.loc
    pure (.int newChip)) chip

def add (os : ℕ → Listing) (pages : List (ApproxPage K)) : Py Unit := do
  let chip ← chipAdd (pages.map some)
  let w ← get
  let m ← ofExcept (matchPages K os w.db pages (.int chip))
  if m = [] then pure ()
  else do
    let m ← ofExcept (shiftOffsets m)
    let _ ← mergeLoop K (.int chip) m
    pure ()

/-- What `main` does for `-c`/`--check` with the pages it has read: `match(pages)`, with the default
    `newChip=0`. -/
def check (os : ℕ → Listing) (pages : List (ApproxPage K)) : Py (List Match) := do
  let w ← get
  ofExcept (matchPages K os w.db pages (.int 0))

end ProbableCause
