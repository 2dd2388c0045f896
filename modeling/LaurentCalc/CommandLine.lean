/-!
# The command line

Expressions may begin with a minus sign, so not every argument with a hyphen in front is a flag.
With one hyphen an argument is a row of flags only if nothing but known letters stands behind it.
With two hyphens or more it is a flag only if it names one: the name is what stands behind all the
hyphens, up to the first equals sign, and what is behind that sign is not looked at.  Every other
argument is an expression, and so is every argument behind the separator `--`.

* `Flag`, `flags?` — the flags that an argument consists of.
* `Invocation` — what the arguments ask for.
* `Invocation.ofArguments` — from left to right; a request for help or for the version decides at
  once, whatever follows.
-/

namespace LaurentCalc

inductive Flag where
  | verbose
  | help
  | version
deriving DecidableEq, Repr

def Flag.ofLetter? : Char → Option Flag
  | 'v' => some verbose
  | 'h' => some help
  | 'V' => some version
  | _ => none

def Flag.ofName? (name : String) : Option Flag :=
  if name = "help" then some help
  else if name = "version" then some version
  else none

/-- The name in an argument with several hyphens in front: hyphens are left out, however many
there are, and so is a value with its equals sign. -/
def flagName (cs : List Char) : String :=
  String.ofList ((cs.dropWhile (· = '-')).takeWhile (· ≠ '='))

/-- The flags that an argument consists of; there are none if it is an expression. -/
def flags? (argument : String) : Option (List Flag) :=
  match argument.toList with
  | '-' :: '-' :: cs => (Flag.ofName? (flagName cs)).map ([·])
  | '-' :: c :: cs => (c :: cs).mapM Flag.ofLetter?
  | _ => none

inductive Invocation where
  | help
  | version
  /-- Sum the expressions, or open the menu if there are none. -/
  | calculate (expressions : List String) (verbosity : Nat)
deriving DecidableEq, Repr

namespace Invocation

def separator : String := "--"

def withExpression (e : String) : Invocation → Invocation
  | calculate es n => calculate (e :: es) n
  | other => other

def withFlag : Flag → Invocation → Invocation
  | .help, _ => help
  | .version, _ => version
  | .verbose, calculate es n => calculate es (n + 1)
  | .verbose, other => other

def ofArguments : List String → Invocation
  | [] => calculate [] 0
  | a :: as =>
      if a = separator then calculate as 0
      else match flags? a with
        | some fs => fs.foldr withFlag (ofArguments as)
        | none => (ofArguments as).withExpression a

end Invocation

end LaurentCalc
