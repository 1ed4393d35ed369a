import StaticPromotion.Declaration

/-!
# Verdicts on a method body

* `Reason`    the ways in which code can be tied to an instance, or cannot be judged; `Reason.message` words each;
* `Finding`   a reason with its line;
* `Verdict`   either the first finding, or the methods that the body calls on its own receiver and that no subclass replaces.
              The body can do without an instance if these can.
-/

namespace StaticPromotion

inductive Reason where
  | noBody
  /-- a part that the parser could not read -/
  | unparsable
  | unrecognized (kind : String)
  | mayBeInherited (name cls : String)
  | readsField (name : String)
  /-- a receiver, as written -/
  | uses (receiver : String)
  | usesToCall (receiver name : String)
  | unknownReceiver (access : String)
  | unknownReceiverOfCall (name : String)
  | malformedFieldAccess
  | callsInherited (name : String)
  | unresolvableCall (name : String)
  | callsInstanceMethod (qualified : String)
  /-- a creation with `this` for the outer instance -/
  | createsWithThis
  | createsInner (cls : String)
  | malformedMethodReference
  | referencesInnerConstructor (cls : String)
  | unindexedLocalClass
  | unindexedAnonymousClass
deriving DecidableEq, Repr

def Reason.message : Reason → String
  | .noBody => "method has no body"
  | .unparsable => "unparsable code"
  | .unrecognized kind => s!"unrecognized construct '{kind}'"
  | .mayBeInherited name cls => s!"'{name}' may be inherited by {cls}"
  | .readsField name => s!"reads instance field '{name}'"
  | .uses receiver => s!"uses '{receiver}'"
  | .usesToCall receiver name => s!"uses '{receiver}' to call '{name}'"
  | .unknownReceiver access => s!"unknown receiver in '{access}'"
  | .unknownReceiverOfCall name => s!"unknown receiver in call to '{name}'"
  | .malformedFieldAccess => "malformed field access"
  | .callsInherited name => s!"calls inherited method '{name}'"
  | .unresolvableCall name => s!"cannot resolve call to '{name}'"
  | .callsInstanceMethod qualified => s!"calls instance method '{qualified}'"
  | .createsWithThis => "creates inner class with 'this' as outer instance"
  | .createsInner cls => s!"creates inner class '{cls}'"
  | .malformedMethodReference => "malformed method reference"
  | .referencesInnerConstructor cls => s!"references constructor of inner class '{cls}'"
  | .unindexedLocalClass => "unindexed local class"
  | .unindexedAnonymousClass => "unindexed anonymous class"

structure Finding where
  reason : Reason
  line : Nat
deriving DecidableEq, Repr

/-- the reason, with its line if it has one -/
def Finding.message (f : Finding) : String :=
  if f.line = 0 then f.reason.message else s!"{f.reason.message} (line {f.line})"

inductive Verdict where
  | access (finding : Finding)
  | clear (edges : List MethodId)
deriving DecidableEq, Repr

end StaticPromotion
