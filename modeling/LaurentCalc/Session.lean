import LaurentCalc.Polynomial.Basic

/-!
# Sessions

A session is the numbered list of polynomials that a user works on.  Positions are counted from
one, as they are shown; deleting an entry moves every later one up by one place.

* `Session` — the list.
* `Session.create`, `Session.push` — a new last entry.
* `Session.get`, `Session.delete` — the entry at a position.
* `Session.listing` — one line for each entry.
* `Session.sum` — the sum of all entries.
* `Session.handle` — all of these as requests to one state, for statements about whole runs.
-/

namespace LaurentCalc

/-- The polynomials of a session, the oldest first. -/
structure Session where
  entries : List Polynomial
deriving DecidableEq, Repr

namespace Session

def empty : Session := ⟨[]⟩

def length (s : Session) : Nat := s.entries.length

/-- The session with one more entry, at position `length`. -/
def push (s : Session) (p : Polynomial) : Session := ⟨s.entries ++ [p]⟩

/-- The session with the polynomial of an expression as its new last entry. -/
def create (s : Session) (text : String) : Except Fault Session :=
  (Polynomial.ofText text).map s.push

def get (s : Session) (position : Nat) : Except Fault Polynomial :=
  match position with
  | 0 => .error (.noSuchEntry 0 s.length)
  | i + 1 =>
      match s.entries[i]? with
      | some p => .ok p
      | none => .error (.noSuchEntry (i + 1) s.length)

/-- The entry at a position, and the session without it. -/
def delete (s : Session) (position : Nat) : Except Fault (Polynomial × Session) :=
  (s.get position).map fun p => (p, ⟨s.entries.eraseIdx (position - 1)⟩)

/-- The entries with their positions. -/
def numbered (s : Session) : List (Nat × Polynomial) :=
  s.entries.zipIdx 1 |>.map fun (p, i) => (i, p)

def entryLine (position : Nat) (p : Polynomial) : String :=
  Decimal.text position ++ ".) " ++ p.text

/-- The lines of all entries, with line breaks between them. -/
def listing (s : Session) : String :=
  "\n".intercalate (s.numbered.map fun (i, p) => entryLine i p)

/-- The sum of all entries, added one after the other. -/
def sum (s : Session) : Except Fault Polynomial := Polynomial.sum s.entries

/-! ## Requests -/

/-- What can be asked of a session. -/
inductive Request where
  | create (text : String)
  /-- Store the polynomial of these terms. -/
  | push (ts : List Term)
  | delete (position : Nat)
  | get (position : Nat)
  | sum
  | list
deriving DecidableEq, Repr

/-- What a session answers when nothing goes wrong. -/
inductive Answer where
  | position (n : Nat)
  | deleted (p : Polynomial)
  | entry (p : Polynomial)
  | total (p : Polynomial)
  | entries (ps : List (Nat × Polynomial))
deriving DecidableEq, Repr

/-- The session after a request, and the answer to it.  A request that fails, or only asks,
leaves the session as it was. -/
def handle (s : Session) : Request → Session × Except Fault Answer
  | .create text =>
      match s.create text with
      | .ok s' => (s', .ok (.position s'.length))
      | .error fault => (s, .error fault)
  | .push ts =>
      match Polynomial.ofTerms ts with
      | .ok p => (s.push p, .ok (.position (s.push p).length))
      | .error fault => (s, .error fault)
  | .delete position =>
      match s.delete position with
      | .ok (p, s') => (s', .ok (.deleted p))
      | .error fault => (s, .error fault)
  | .get position => (s, (s.get position).map .entry)
  | .sum => (s, s.sum.map .total)
  | .list => (s, .ok (.entries s.numbered))

end Session

end LaurentCalc
