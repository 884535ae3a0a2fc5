import ProbableCause.Database.Invariant
import ProbableCause.Database.Matching

/-!
# `Database.Check` — the check mode of `main`

`main` calls `match(pages)` for `-c`, so the chip to ignore is the default `0`. `find` removes every
ignored chip from the list of directories, and no reachable database has a directory `0`: the
removal raises for the first page already. Only an empty list of pages gets an answer
(`checkAnswers_iff`).
-/

namespace ProbableCause

open Text Exits Overlay

variable {K : Constants} {db : Database}

/-- **The check answers**: it returns normally, leaves the database alone, and returns the empty list
    exactly when no stored page is near one of the given pages. -/
def CheckAnswers (K : Constants) (db : Database) (pages : List (ApproxPage K)) : Prop :=
  ∀ (os : ℕ → Listing) (draws : List Draw),
    ∃ m, (check K os pages).run ⟨db, draws⟩ = .ok m ⟨db, draws⟩ ∧
      (m = [] ↔ ∀ c l t, Stored db c l t → ∀ page ∈ pages, ¬ Near K t page.errorString)

/-- No directory is named `0`. -/
theorem RepInv.zero_notMem (h : RepInv K db) : digits 0 ∉ db := by
  intro hmem
  obtain ⟨d, hd⟩ := Finmap.mem_iff.mp hmem
  obtain ⟨⟨n, hn, -, hname⟩, -⟩ := h _ _ hd
  have hzero : 0 = n := digits_inj.mp hname
  omega

/-- Ignoring a chip that is not there is a `ValueError` of `list.remove`. -/
theorem find_ignore_notMem (os : Listing) (page : ApproxPage K) {x : PyVal} (hx : pyStr x ∉ db)
    (xs : List PyVal) :
    find K os db page (x :: xs) = raise (.valueError "list.remove(x): x not in list") := by
  have hwalk : pyStr x ∉ os.walk db := fun h => hx ((os.mem_walk db _).mp h)
  rw [find, removeIgnored, if_neg hwalk]
  rfl

/-- `match(pages)` raises before it lists any files. -/
theorem RepInv.matchPages_zero (h : RepInv K db) (os : ℕ → Listing) (page : ApproxPage K)
    (pages : List (ApproxPage K)) :
    matchPages K os db (page :: pages) (.int 0) =
      raise (.valueError "list.remove(x): x not in list") := by
  rw [matchPages, matchFrom, find_ignore_notMem (os 0) page h.zero_notMem []]
  rfl

/-- **With a page to check, the check raises.** -/
theorem run_check_cons (h : RepInv K db) (os : ℕ → Listing) (page : ApproxPage K)
    (pages : List (ApproxPage K)) (draws : List Draw) :
    (check K os (page :: pages)).run ⟨db, draws⟩ =
      .error (.raised (.valueError "list.remove(x): x not in list")) ⟨db, draws⟩ := by
  show (ofExcept (matchPages K os db (page :: pages) (.int 0)) : Py _).run _ = _
  rw [h.matchPages_zero]
  rfl

theorem checkAnswers_nil (K : Constants) (db : Database) : CheckAnswers K db [] := by
  intro os draws
  exact ⟨[], rfl, by simp⟩

theorem not_checkAnswers_cons (h : RepInv K db) (page : ApproxPage K) (pages : List (ApproxPage K)) :
    ¬ CheckAnswers K db (page :: pages) := by
  intro hans
  obtain ⟨m, hm, -⟩ := hans (fun _ => .alphabetical) []
  rw [run_check_cons h] at hm
  cases hm

/-- **The check mode answers exactly the empty list of pages**, on every reachable database. -/
theorem checkAnswers_iff (h : AddReachable K db) (pages : List (ApproxPage K)) :
    CheckAnswers K db pages ↔ pages = [] := by
  cases pages with
  | nil => exact iff_of_true (checkAnswers_nil K db) rfl
  | cons page pages => exact iff_of_false (not_checkAnswers_cons h.repInv page pages) (by simp)

/-- A page that has been added is stored, and the check does not answer for it. -/
theorem checkAnswers_iff_stored :
    let page : ApproxPage Constants.repository := ⟨"01101".toList, .int (-1), .int (-1), by decide⟩
    let db := (exitState ((add Constants.repository (fun _ => .alphabetical) [page]).run
      ⟨∅, [⟨7, by decide⟩]⟩)).db
    db.lookup (digits 7) = some (chipDir ["01101".toList]) ∧
      (CheckAnswers Constants.repository db [page] ↔ [page] = []) := by
  intro page db
  exact ⟨by decide +kernel, checkAnswers_iff (.add .empty _ _ _) [page]⟩

/-- Checking a page right after it was added: the database is reachable, the page is stored, and the
    check does not answer. -/
theorem check_added_page_raises :
    let page : ApproxPage Constants.repository := ⟨"01101".toList, .int (-1), .int (-1), by decide⟩
    let os : ℕ → Listing := fun _ => .alphabetical
    let db := (exitState ((add Constants.repository os [page]).run ⟨∅, [⟨7, by decide⟩]⟩)).db
    AddReachable Constants.repository db ∧ ¬ CheckAnswers Constants.repository db [page] := by
  intro page os db
  have hreach : AddReachable Constants.repository db := .add .empty _ _ _
  exact ⟨hreach, not_checkAnswers_cons hreach.repInv page []⟩

end ProbableCause
