import Mathlib.Data.Finset.Insert
import ParaHotstuff.Lib.ArrayLoop
import ParaHotstuff.Wire.Data

/-!
The loops that go through the array of a value as far as its size says.

The sizes are stored apart from the arrays, so each loop may read past its array; it has no result
then.
-/

namespace ParaHotstuff

open Sizes

/-- The texts of the transactions of a block, read from the array one by one. -/
def readTransactions (size : Nat) (transactions : List Transaction) : Option Text :=
  readFirst transactions (fun text trans => .inr (text ++ trans.toString)) id size 0 []

namespace Wire

/-- Signatures are ordered by their signers alone. -/
def Sign.lt (a b : Sign) : Bool := a.signer < b.signer

/-- The bytes of a signature are written as they are. -/
def Sign.toString (s : Sign) : Text := flagText s.set ++ toText s.signer ++ s.sign

namespace Signs

/-- Whether all signatures in use are by known nodes and valid; the first that is not decides. -/
def verify {Key : Type} (known : PID → Option Key) (valid : Key → Text → Sign → Bool) (text : Text)
    (s : Signs) : Option Bool :=
  readFirst s.signs (fun _ sign =>
    match known sign.signer with
    | some pub => if valid pub text sign then .inr () else .inl false
    -- A signer that is not known is none of the nodes.
    | none => .inl false) (fun _ => true) s.size 0 ()

def toString (s : Signs) : Option Text :=
  readFirst s.signs (fun text sign => .inr (text ++ sign.toString)) id s.size 0 (toText s.size)

/-- Fewer signatures come first; as many are compared in turn, in both arrays. -/
def lt (a b : Signs) : Option Bool :=
  -- No signature is read if the sizes differ.
  if a.size < b.size then some true
  else if b.size < a.size then some false
  else
    readFirst (a.signs.zip b.signs) (fun _ (x, y) =>
      if x.lt y then .inl true else if y.lt x then .inl false else .inr ())
      (fun _ => false) a.size 0 ()

def getSigners (s : Signs) : Option (Finset PID) :=
  readFirst s.signs (fun signers sign => .inr (insert sign.signer signers)) id s.size 0 ∅

/-- Write a signature behind those in use, unless that is past the array. -/
def add (s : Signs) (sign : Sign) : Option Signs :=
  -- The source writes behind the array if there is no room, which is undefined.
  if s.size < s.signs.length then some ⟨s.size + 1, s.signs.set s.size sign⟩ else none

/-- Add the signatures of another array from one on, until there are enough. -/
def addFrom (others : Signs) (n : Nat) : Nat → Nat → Signs → Option Signs
  | 0, _, s => some s
  | left + 1, i, s =>
    -- The loop goes on until all are added or there are enough.
    if s.size < n then do
      let sign ← others.signs[i]?
      let s ← s.add sign
      addFrom others n left (i + 1) s
    else some s

def addUpto (s others : Signs) (n : Nat) : Option Signs := addFrom others n others.size 0 s

end Signs

end Wire

end ParaHotstuff
