import StaticPromotion.Registry

/-!
# Scopes

A scope is one level of name lookup: a block-like level with variables and local types, or the level of a class. Scopes
are numbered, and a store holds a frame for each. A frame lists the scopes around it, so a declaration made in a scope
is seen from every scope inside it, also from those opened earlier.

* `Frame`                  one level: its label, its class if it is the level of one, its ancestors from the nearest
                           outwards, and what is declared in it;
* `Scopes.child`, `Scopes.enterClass`      open a level inside another;
* `Scopes.declare`, `Scopes.declareType`   fill a level;
* `Scopes.chain`           a scope and its ancestors, innermost first; `innermostClass` the class of the first class
                           level on it;
* `Scopes.snapshot`        a copy of the block levels up to the nearest class level, which is shared. Later
                           declarations in the copied levels are not seen in the copy: it is what a class declared at
                           that point can capture. The bare outermost level needs no copy.
-/

namespace StaticPromotion

abbrev ClassId := Nat

abbrev ScopeId := Nat

structure Frame where
  label : String
  cls : Option ClassId := none
  ancestors : List ScopeId := []
  locals : List String := []
  types : Registry ClassId := []
deriving Inhabited, Repr

def Frame.isClassScope (f : Frame) : Bool :=
  f.cls.isSome

/-- nothing is declared in it -/
def Frame.isBare (f : Frame) : Bool :=
  f.locals.isEmpty && f.types.isEmpty

structure Scopes where
  frames : Array Frame
deriving Inhabited

namespace Scopes

/-! ## frames and chains -/

/-- the outermost scope, of the whole unit -/
def rootId : ScopeId := 0

def initial : Scopes :=
  ⟨#[{ label := "unit" }]⟩

def frame (s : Scopes) (id : ScopeId) : Frame :=
  s.frames.getD id default

def chain (s : Scopes) (id : ScopeId) : List ScopeId :=
  id :: (s.frame id).ancestors

def levels (s : Scopes) (id : ScopeId) : List Frame :=
  (s.chain id).map s.frame

def innermostClass (s : Scopes) (id : ScopeId) : Option ClassId :=
  (s.levels id).findSome? (·.cls)

/-! ## opening levels -/

def add (s : Scopes) (f : Frame) : ScopeId × Scopes :=
  (s.frames.size, ⟨s.frames.push f⟩)

def blockLabel : String := "<block>"

def child (s : Scopes) (parent : ScopeId) (label : String := blockLabel) : ScopeId × Scopes :=
  s.add { label := label, ancestors := s.chain parent }

def enterClass (s : Scopes) (parent : ScopeId) (cls : ClassId) (displayName : String) :
    ScopeId × Scopes :=
  s.add { label := s!"class_{displayName}", cls := some cls, ancestors := s.chain parent }

/-! ## declarations -/

def modifyFrame (s : Scopes) (id : ScopeId) (change : Frame → Frame) : Scopes :=
  ⟨s.frames.modify id change⟩

def declare (s : Scopes) (id : ScopeId) (name : String) : Scopes :=
  s.modifyFrame id fun f => { f with locals := f.locals.insert name }

def declareAll (s : Scopes) (id : ScopeId) (names : List String) : Scopes :=
  names.foldl (fun s name => s.declare id name) s

def declareType (s : Scopes) (id : ScopeId) (name : String) (cls : ClassId) : Scopes :=
  s.modifyFrame id fun f => { f with types := f.types.put name cls }

/-! ## snapshots -/

/-- copies the block levels at the front of a chain, and gives the chain of the copy -/
def snapshotChain (s : Scopes) : List ScopeId → List ScopeId × Scopes
  | [] => ([], s)
  | id :: outer =>
    let f := s.frame id
    if f.isClassScope || (outer.isEmpty && f.isBare) then (id :: outer, s)
    else
      let (copied, s) := snapshotChain s outer
      let (fresh, s) := s.add { f with ancestors := copied }
      (fresh :: copied, s)

def snapshot (s : Scopes) (id : ScopeId) : ScopeId × Scopes :=
  let (copied, s) := s.snapshotChain (s.chain id)
  (copied.headD id, s)

end Scopes

end StaticPromotion
