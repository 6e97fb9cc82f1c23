/-!
Where the lines of a file are after some lines have been added or removed.
-/

namespace Blueprint

/-- Shifts of lines by their first numbers: each one holds from its line up to the next one's. -/
structure LineShifts where
  shifts : List (Nat × Int)
deriving DecidableEq

namespace LineShifts

def empty : LineShifts := ⟨[]⟩

def shiftOf (o : LineShifts) (line : Nat) : Int :=
  match (o.shifts.takeWhile (·.1 ≤ line)).getLast? with
  | some (_, shift) => shift
  | none => 0

/-- Where the line is now that had this number at first. -/
def current (o : LineShifts) (line : Nat) : Nat :=
  (max 1 ((line : Int) + o.shiftOf line)).toNat

/-- Records that lines were added after a line, or removed. -/
def record (o : LineShifts) (line : Nat) (delta : Int) : LineShifts :=
  if delta = 0 then o
  else
    let before := o.shifts.takeWhile (·.1 ≤ line)
    let after := o.shifts.dropWhile (·.1 ≤ line)
    let after :=
      if after.head?.any (·.1 == line + 1) then after else (line + 1, o.shiftOf line) :: after
    ⟨before ++ after.map fun (l, shift) => (l, shift + delta)⟩

end LineShifts

end Blueprint
