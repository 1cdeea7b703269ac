import Xref.Project.FilePath

/-!
# Locks on files

A lock table remembers every file that a lock was asked for, and which of them are locked. A lock
is granted exactly if the file is not locked.
-/

namespace Xref

/-- A span of time in milliseconds. -/
structure Duration where
  millis : Nat
  deriving DecidableEq, Repr, Inhabited

/-- The decimals of `millis` thousandths, without zeros at the end. -/
def Duration.decimals (millis : Nat) : String :=
  let digits := [millis / 100, millis / 10 % 10, millis % 10]
  String.ofList ((digits.reverse.dropWhile (· == 0)).reverse.map Nat.digitChar)

/-- The written form of a span of time, in the largest unit that it fills. -/
def Duration.text (d : Duration) : String :=
  if d.millis = 0 then "0ns"
  else if d.millis < 1000 then s!"{d.millis}ms"
  else
    let fraction := decimals (d.millis % 1000)
    if fraction = "" then s!"{d.millis / 1000}s" else s!"{d.millis / 1000}.{fraction}s"

/-- The files that locks were asked for, and those that are locked. -/
structure Locks where
  asked : List FilePath
  held : List FilePath
  deriving Repr

namespace Locks

/-- No lock was asked for. -/
def empty : Locks := ⟨[], []⟩

/-- Whether a file is locked. -/
def isLocked (l : Locks) (p : FilePath) : Bool := l.held.any (·.sameAs p)

/-- Remembers that the lock on a file was asked for. -/
def ask (l : Locks) (p : FilePath) : Locks :=
  if l.asked.any (·.sameAs p) then l else { l with asked := p :: l.asked }

/-- Asks for the lock on a file. The answer says whether it was granted. -/
def acquire (l : Locks) (p : FilePath) : Bool × Locks :=
  let l := l.ask p
  if l.isLocked p then (false, l) else (true, { l with held := p :: l.held })

/-- Gives the lock on a file back. -/
def release (l : Locks) (p : FilePath) : Locks :=
  { l with held := l.held.filter fun q => !q.sameAs p }

/-- One line about a lock table. -/
def summary (l : Locks) : String :=
  "LockTable \x7b paths: " ++ toString l.asked.length ++ ", held: " ++ toString l.held.length ++
    " \x7d"

end Locks

end Xref
