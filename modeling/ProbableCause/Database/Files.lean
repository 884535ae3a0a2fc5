import ProbableCause.Lib.Exits
import ProbableCause.Database.Page
import Mathlib.Data.Char
import Mathlib.Data.Finmap
import Mathlib.Data.List.Lex
import Mathlib.Data.List.Sort

/-!
# `Database.Files` — the directory `database/` and the functions of `probableCause.py` that touch it

The database is a directory of chip directories, each a directory of page files. File operations
themselves succeed; what can go wrong is what the program does with their results. The random numbers
still to be drawn are part of the state: `getChipNumber` draws until it hits a number not in use and
stops with `Stop.drawing` when the outcomes at hand run out before it does.
-/

namespace ProbableCause

open Text Exits

/-! ## State -/

/-- A chip directory: file names and file contents. -/
abbrev Dir := Finmap fun _ : Str => Str

/-- `database/`: the chip directories by name. -/
abbrev Database := Finmap fun _ : Str => Dir

/-- An outcome of `random.randint(1,1000)`. -/
abbrev Draw := { n : ℕ // 1 ≤ n ∧ n ≤ 1000 }

/-- The directory and the random outcomes still to come. -/
structure World where
  db : Database
  draws : List Draw

/-- A stateful function of the program. -/
abbrev Py := EStateM Stop World

variable {K : Constants}

/-- The name of the page file at a location, `str(loc)+'.txt'`. -/
def fileName (loc : PyVal) : Str := pyStr loc ++ ".txt".toList

/-! ## `pageWrite` and `pageRead` -/

/-- `makedirs` if there is no directory `c`, then (over)write its file `f`. -/
def writeFile (db : Database) (c f s : Str) : Database :=
  db.insert c (((db.lookup c).getD ∅).insert f s)

def pageWrite (page : ApproxPage K) : Py Unit :=
  modify fun w =>
    { w with db := writeFile w.db (pyStr page.chip) (fileName page.loc) page.errorString }

/-- `none` stands for the empty list the source returns when there is no such file. -/
def pageRead (K : Constants) (db : Database) (chip loc : PyVal) :
    Except Stop (Option (ApproxPage K)) :=
  match (db.lookup (pyStr chip)).bind fun d => d.lookup (fileName loc) with
  | none => .ok none
  | some s => (approxPage K s chip loc).map some

/-! ## `getChipNumber`, `chipAdd` and `chipRemove` -/

/-- The loop of `getChipNumber`: the first number drawn that is not in use, and the draws after it. -/
def firstFree (db : Database) : List Draw → Option (ℕ × List Draw)
  | [] => none
  | r :: rs => if pyStr (.int (r.1 : ℤ)) ∈ db then firstFree db rs else some (r.1, rs)

def getChipNumber : Py ℕ := do
  let w ← get
  match firstFree w.db w.draws with
  | some (newChip, draws) => set { w with draws := draws }; pure newChip
  | none => set { w with draws := [] }; throw .drawing

/-- The loop of `chipAdd` from location `i` on. A list element that is no page (the empty list of
    `pageRead`, the `None` of `pageMerge`) has no attribute `chip` to assign. -/
def writePages (newChip : ℕ) : ℕ → List (Option (ApproxPage K)) → Py Unit
  | _, [] => pure ()
  | _, none :: _ => throw (.raised .attributeError)
  | i, some page :: pages => do
    pageWrite { page with chip := .int newChip, loc := .int i }
    writePages newChip (i + 1) pages

def chipAdd (pages : List (Option (ApproxPage K))) : Py ℕ := do
  let newChip ← getChipNumber
  writePages newChip 0 pages
  pure newChip

/-- `shutil.rmtree`; a directory that does not exist is an `OSError`. -/
def chipRemove (chip : PyVal) : Py Unit := do
  let w ← get
  if pyStr chip ∈ w.db then set { w with db := w.db.erase (pyStr chip) }
  else throw (.raised .osError)

/-! ## Directory listings -/

/-- An order in which `os.walk('database/')` lists the chip directories and `os.listdir` the files of
    each: any order, but every entry exactly once. -/
structure Listing where
  walk : Database → List Str
  listdir : Database → Str → List Str
  walk_nodup : ∀ db, (walk db).Nodup
  mem_walk : ∀ db c, c ∈ walk db ↔ c ∈ db
  listdir_nodup : ∀ db c, (listdir db c).Nodup
  mem_listdir : ∀ db c f, f ∈ listdir db c ↔ ∃ d, db.lookup c = some d ∧ f ∈ d

/-- The names of a directory, sorted. -/
def sortedNames {β : Type} (d : Finmap fun _ : Str => β) : List Str :=
  Quot.liftOn d.keys.val (fun l => l.insertionSort (· ≤ ·)) fun l₁ l₂ h => by
    have hperm : (l₁.insertionSort (· ≤ ·)).Perm (l₂.insertionSort (· ≤ ·)) :=
      (List.perm_insertionSort _ _).trans ((show l₁.Perm l₂ from h).trans
        (List.perm_insertionSort _ _).symm)
    exact hperm.eq_of_pairwise' (List.pairwise_insertionSort _ _) (List.pairwise_insertionSort _ _)

/-- Sorting keeps the names as they are. -/
theorem coe_sortedNames {β : Type} (d : Finmap fun _ : Str => β) :
    (sortedNames d : Multiset Str) = d.keys.val := by
  unfold sortedNames
  induction d.keys.val using Quot.ind with
  | mk l => exact Quot.sound (List.perm_insertionSort _ l)

theorem mem_sortedNames {β : Type} {d : Finmap fun _ : Str => β} {c : Str} :
    c ∈ sortedNames d ↔ c ∈ d := by
  rw [← Multiset.mem_coe, coe_sortedNames, Finset.mem_val, Finmap.mem_keys]

theorem sortedNames_nodup {β : Type} (d : Finmap fun _ : Str => β) : (sortedNames d).Nodup := by
  rw [← Multiset.coe_nodup, coe_sortedNames]
  exact d.keys.nodup

/-- The listing in alphabetical order. -/
def Listing.alphabetical : Listing where
  walk := sortedNames
  listdir db c := sortedNames ((db.lookup c).getD ∅)
  walk_nodup := sortedNames_nodup
  mem_walk _ _ := mem_sortedNames
  listdir_nodup _ _ := sortedNames_nodup _
  mem_listdir db c f := by
    rw [mem_sortedNames]
    cases db.lookup c <;> simp [Finmap.notMem_empty]

end ProbableCause
