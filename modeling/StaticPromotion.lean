import StaticPromotion.Main
import StaticPromotion.Proofs.Overriding
import StaticPromotion.Proofs.Rerunning
import StaticPromotion.Proofs.Recording
import StaticPromotion.Proofs.FailingClosed
import StaticPromotion.Proofs.LineEnds
import StaticPromotion.Proofs.Encounters
import StaticPromotion.Proofs.Exhaustion
import StaticPromotion.Proofs.Conditions
import StaticPromotion.Proofs.Templates
import StaticPromotion.Proofs.Merging
import StaticPromotion.Proofs.Chains
import StaticPromotion.Proofs.Spelling
import StaticPromotion.Proofs.Containment
import StaticPromotion.Proofs.Blockers
import StaticPromotion.Proofs.Distances
import StaticPromotion.Proofs.Snapshots
import StaticPromotion.Proofs.Loading
import StaticPromotion.Proofs.Phases
import StaticPromotion.Proofs.Traversal
