import Formula.Value.Basic

/-!
The entries of an array, in order. A key stands for one entry: storing under a key that is
there already replaces the value where the key first appeared.
-/
namespace Formula

abbrev Entries := List Entry

namespace Entries

/-- Appends a value without a key. -/
def push (es : Entries) (v : Value) : Entries := es ++ [.positional v]

/-- Stores a value under a key, in place if the key is there and at the end otherwise. -/
def insert : Entries → String → Value → Entries
  | [], k, v => [.keyed k v]
  | e :: es, k, v => if e.key? = some k then .keyed k v :: es else e :: insert es k v

def get? (es : Entries) (k : String) : Option Value :=
  (es.find? fun e => e.key? == some k).map Entry.value

def values (es : Entries) : List Value := es.map Entry.value

def keys (es : Entries) : List String := es.filterMap Entry.key?

/-- No entry has a key. -/
def isPlainList (es : Entries) : Bool := es.all fun e => e.key?.isNone

/-- Adds one entry to the end, or in place of the one with its key. -/
def add (es : Entries) : Entry → Entries
  | .positional v => es.push v
  | .keyed k v => es.insert k v

/-- The entries of `fs` added to `es` one by one. -/
def concat (es fs : Entries) : Entries := fs.foldl add es

def ofValues (vs : List Value) : Entries := vs.map .positional

def ofPairs (pairs : List (String × Value)) : Entries :=
  pairs.foldl (fun es p => es.insert p.1 p.2) []

@[simp] theorem keys_nil : keys [] = [] := rfl

@[simp] theorem keys_cons (e : Entry) (es : Entries) :
    keys (e :: es) = e.key?.toList ++ keys es := by
  cases e <;> simp [keys, List.filterMap_cons]

@[simp] theorem keys_append (es fs : Entries) : keys (es ++ fs) = keys es ++ keys fs :=
  List.filterMap_append

/-- A value without a key leaves the keys as they are. -/
@[simp] theorem keys_push (es : Entries) (v : Value) : (es.push v).keys = es.keys := by
  simp [push]

/-- Storing adds the key at the end unless it is there already. -/
theorem keys_insert (es : Entries) (k : String) (v : Value) :
    (es.insert k v).keys = if k ∈ es.keys then es.keys else es.keys ++ [k] := by
  induction es with
  | nil => simp [insert]
  | cons e es ih =>
    cases e with
    | positional w => simp [insert, ih]
    | keyed l w =>
      by_cases h : l = k
      · simp [insert, h]
      · by_cases hk : k ∈ keys es <;> simp [insert, h, ih, hk, Ne.symm h]

@[simp] theorem concat_nil (es : Entries) : es.concat [] = es := rfl

theorem concat_append (es fs gs : Entries) : es.concat (fs ++ gs) = (es.concat fs).concat gs :=
  List.foldl_append

end Entries
end Formula
