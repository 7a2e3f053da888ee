import Mathlib.Data.List.Basic

/-!
# Location records of a node

What a node knows about where entities are.  A record about an entity whose home is this
node is kept in the directory, any other one in a cache of bounded size from which the least
recently used record is evicted.

The cache is a list with the most recently used element first, and a table with an iterator
into the list for each key.  An iterator is the number of a list element, which moving the
element within the list does not change.
-/

namespace VtRuntime.Topos

universe u v w

/-- The state of a record.  No record is ever made with the state `Invalid` of the source. -/
inductive LocState
  | localTo
  | remote
deriving DecidableEq

structure LocRecord (E : Type u) (N : Type v) where
  id : E
  state : LocState
  curNode : N
deriving DecidableEq

namespace LocRecord

variable {E : Type u} {N : Type v}

def isLocal (r : LocRecord E N) : Bool := r.state = .localTo

def getRemoteNode (r : LocRecord E N) : N := r.curNode

end LocRecord

/-- An element of the list of the cache, with its number. -/
structure CacheElm (K : Type u) (V : Type v) where
  iter : ℕ
  key : K
  value : V

/-- The cache.  The number `fresh` is that of the next list element. -/
structure LocationCache (K : Type u) (V : Type v) where
  maxSize : ℕ
  lookup : List (K × ℕ) := []
  cache : List (CacheElm K V) := []
  fresh : ℕ := 0

namespace LocationCache

variable {K : Type u} {V : Type v} [DecidableEq K]

variable (c : LocationCache K V) (key : K)

/-- The entry of a key in the table. -/
def find : Option ℕ :=
  (c.lookup.find? fun x => x.1 = key).map Prod.snd

def existsKey : Bool := (c.find key).isSome

/-- Move an element to the front of the list. -/
def splice (x : CacheElm K V) : LocationCache K V :=
  { c with cache := x :: c.cache.filter fun y => y.iter ≠ x.iter }

/-- The value of a key, which becomes the most recently used one. -/
def get : Option (V × LocationCache K V) :=
  (c.find key).bind fun it =>
    (c.cache.find? fun y => y.iter = it).map fun x => (x.value, c.splice x)

def remove : LocationCache K V :=
  match c.find key with
  | none => c
  | some it =>
      { c with
        lookup := c.lookup.filter fun x => x.1 ≠ key
        cache := c.cache.filter fun y => y.iter ≠ it }

/-- Evict the least recently used element. -/
def popBack : LocationCache K V :=
  match c.cache.getLast? with
  | none => c
  | some y =>
      { c with
        lookup := c.lookup.filter fun x => x.1 ≠ y.key
        cache := c.cache.dropLast }

def pushFront (value : V) : LocationCache K V :=
  { c with
    lookup := (key, c.fresh) :: c.lookup
    cache := ⟨c.fresh, key, value⟩ :: c.cache
    fresh := c.fresh + 1 }

def insert (value : V) : LocationCache K V :=
  match c.find key with
  | none =>
      if c.lookup.length + 1 > c.maxSize then c.popBack.pushFront key value
      else c.pushFront key value
  | some it =>
      match c.cache.find? fun y => y.iter = it with
      | none => c
      | some y => c.splice { y with value := value }

end LocationCache

/-- The directory and the cache of a node. -/
structure LocLookup (K : Type u) (V : Type v) (N : Type w) where
  thisNode : N
  directory : K → Option V
  cache : LocationCache K V

namespace LocLookup

variable {K : Type u} {V : Type v} {N : Type w} [DecidableEq K] [DecidableEq N]

variable (l : LocLookup K V N) (key : K)

def existsKey : Bool :=
  (l.directory key).isSome || l.cache.existsKey key

def get : Option (V × LocLookup K V N) :=
  match l.directory key with
  | some v => some (v, l)
  | none => (l.cache.get key).map fun (v, cache) => (v, { l with cache := cache })

def remove : LocLookup K V N :=
  { l with
    directory := Function.update l.directory key none
    cache := l.cache.remove key }

/-- The home of the entity decides where the record goes. -/
def insert (home : N) (value : V) : LocLookup K V N :=
  if l.thisNode = home then
    { l with directory := Function.update l.directory key (some value) }
  else { l with cache := l.cache.insert key value }

def update (value : V) : LocLookup K V N :=
  if (l.directory key).isSome then
    { l with directory := Function.update l.directory key (some value) }
  else { l with cache := l.cache.insert key value }

def clearCache (maxCacheSize : ℕ) : LocLookup K V N :=
  { l with cache := { maxSize := maxCacheSize } }

end LocLookup

end VtRuntime.Topos
