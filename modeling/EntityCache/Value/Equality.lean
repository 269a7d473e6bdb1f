import EntityCache.Value.Basic

/-! When two values are the same. Doubles compare by their bits, with one zero and one
NaN; an integer equals the double that it converts to and back; timestamps of either kind
compare by epoch milliseconds. Values that are the same feed a hash the same words. -/
namespace EntityCache

namespace Binary64

def comparisonBits (x : Binary64) : UInt64 :=
  if x.isZero then zero.bits else if x.isNaN then nan.bits else x.bits

def sameAsInt (x : Binary64) (i : Int64) : Bool :=
  (ofInt i.toInt).comparisonBits == x.comparisonBits && x.toInt64 == i

end Binary64

namespace Value

mutual
def same : Value → Value → Bool
  | null, null => true
  | boolean a, boolean b => a == b
  | integer a, integer b => a == b
  | float a, float b => a.comparisonBits == b.comparisonBits
  | integer i, float x => x.sameAsInt i
  | float x, integer i => x.sameAsInt i
  | text a, text b => a == b
  | duration a, duration b => a == b
  | binary a, binary b => a == b
  | guid a, guid b => a == b
  | list a, list b => sameItems a b
  | dateTime a, dateTime b => a.epochMillis == b.epochMillis
  | dateTime a, dateTimeOffset b _ => a.epochMillis == b.epochMillis
  | dateTimeOffset a _, dateTime b => a.epochMillis == b.epochMillis
  | dateTimeOffset a _, dateTimeOffset b _ => a.epochMillis == b.epochMillis
  | _, _ => false

def sameItems : List Value → List Value → Bool
  | [], [] => true
  | a :: as, b :: bs => same a b && sameItems as bs
  | _, _ => false
end

inductive HashWord where
  | tag (n : Nat)
  | number (n : Int)
  | chars (s : String)
  deriving DecidableEq, Repr

def numberFeed (x : Binary64) : List HashWord := [.tag 2, .number x.comparisonBits.toNat]

mutual
def hashFeed : Value → List HashWord
  | null => [.tag 0]
  | boolean b => [.tag 1, .number (if b then 1 else 0)]
  | integer i => numberFeed (Binary64.ofInt i.toInt)
  | float x => numberFeed x
  | dateTime t => [.tag 3, .number t.epochMillis]
  | dateTimeOffset t _ => [.tag 3, .number t.epochMillis]
  | text s => [.tag 4, .chars s]
  | duration s => [.tag 4, .chars s]
  | binary s => [.tag 4, .chars s]
  | guid g => [.tag 5, .number g.value.toNat]
  | list items => .tag 6 :: .number items.length :: hashFeeds items

def hashFeeds : List Value → List HashWord
  | [] => []
  | v :: rest => hashFeed v ++ hashFeeds rest
end

end Value

end EntityCache
