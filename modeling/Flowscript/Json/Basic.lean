import Flowscript.Number.Decimal

/-! # Data documents

A document is a tree of nulls, booleans, numbers, texts, lists and objects. Integers and floating
point numbers are different numbers: `1` and `1.0` are not the same document. Objects that stand for
values have their keys in increasing order, each once; objects that are about to be written keep the
order of their entries.
-/
namespace Flowscript

inductive Number where
  | int (n : Int)
  | double (x : F64)
  | single (x : F32)
deriving DecidableEq, Repr

inductive Json where
  | null
  | bool (b : Bool)
  | num (n : Number)
  | str (s : String)
  | arr (items : List Json)
  | obj (entries : List (String × Json))
deriving Inhabited, Repr

namespace Number

def same : Number → Number → Bool
  | .int a, .int b => a == b
  | .double a, .double b => a.same b
  | .single a, .single b => a.same b
  | _, _ => false

end Number

namespace Json

def int (n : Int) : Json := .num (.int n)
def nat (n : Nat) : Json := .num (.int n)
def double (x : F64) : Json := .num (.double x)
def single (x : F32) : Json := .num (.single x)

/-- The entries with `key` set to `value`, in key order, an earlier value replaced. -/
def insertEntry {α : Type} (key : String) (value : α) : List (String × α) → List (String × α)
  | [] => [(key, value)]
  | (k, v) :: rest =>
    if key < k then (key, value) :: (k, v) :: rest
    else if key = k then (key, value) :: rest
    else (k, v) :: insertEntry key value rest

/-- Entries in key order; of several under one key the last stays. -/
def sortEntries {α : Type} (entries : List (String × α)) : List (String × α) :=
  entries.foldl (fun sorted e => insertEntry e.1 e.2 sorted) []

def ofEntries (entries : List (String × Json)) : Json := .obj (sortEntries entries)

def get? : Json → String → Option Json
  | .obj entries, key => entries.lookup key
  | _, _ => none

def str? : Json → Option String
  | .str s => some s
  | _ => none

def bool? : Json → Option Bool
  | .bool b => some b
  | _ => none

def int? : Json → Option Int
  | .num (.int n) => some n
  | _ => none

def nat? : Json → Option Nat
  | .num (.int n) => if 0 ≤ n then some n.toNat else none
  | _ => none

def items? : Json → Option (List Json)
  | .arr items => some items
  | _ => none

mutual

/-- Equality of documents, with numeric equality of floating-point numbers. -/
def same : Json → Json → Bool
  | .null, .null => true
  | .bool a, .bool b => a == b
  | .num a, .num b => a.same b
  | .str a, .str b => a == b
  | .arr a, .arr b => sameItems a b
  | .obj a, .obj b => sameEntries a b
  | _, _ => false

def sameItems : List Json → List Json → Bool
  | [], [] => true
  | a :: as, b :: bs => same a b && sameItems as bs
  | _, _ => false

def sameEntries : List (String × Json) → List (String × Json) → Bool
  | [], [] => true
  | (k, a) :: as, (l, b) :: bs => k == l && same a b && sameEntries as bs
  | _, _ => false

end

end Json

end Flowscript
