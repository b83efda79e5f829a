import ChainGrammar.Authoring.Session
import ChainGrammar.Derivation
import ChainGrammar.Expression.Grammar
import ChainGrammar.Inspect
import ChainGrammar.Position.Plain
import ChainGrammar.Proofs.Authoring.Freezing
import ChainGrammar.Proofs.Authoring.Refusals
import ChainGrammar.Proofs.Authoring.Shape
import ChainGrammar.Proofs.Authoring.SingleWriter
import ChainGrammar.Proofs.Derivation.Exactness
import ChainGrammar.Proofs.Expression.Exactness
import ChainGrammar.Proofs.Expression.Transcript
import ChainGrammar.Proofs.Tree.BackEdges
import ChainGrammar.Proofs.Tree.Unfolded
import ChainGrammar.Tree.Containment
import ChainGrammar.Tree.Outline
import ChainGrammar.Proofs.Derivation.Limit
import ChainGrammar.Proofs.Rule.Order
import ChainGrammar.Proofs.Tree.Pairing
import ChainGrammar.Proofs.Position.Pairing
import ChainGrammar.Proofs.Chain.Order
import ChainGrammar.Proofs.Rule.Cycle
import ChainGrammar.Tree.Assembly
import ChainGrammar.Proofs.Tree.Assembled
import ChainGrammar.Proofs.Tree.Assembly
import ChainGrammar.Proofs.Chain.Outcomes
import ChainGrammar.Proofs.Position.Range
import ChainGrammar.Proofs.Expression.Composition
import ChainGrammar.Proofs.Chain.Invocations
import ChainGrammar.Proofs.Chain.Expressions
import ChainGrammar.Proofs.Expression.CallIndex
import ChainGrammar.Proofs.Position.Count
import ChainGrammar.Proofs.Tree.Enclosing
import ChainGrammar.Proofs.Expression.Completion
import ChainGrammar.Proofs.Position.Stacks
import ChainGrammar.Proofs.Position.Lengths
import ChainGrammar.Proofs.Position.Growth
import ChainGrammar.Proofs.Position.Resumption
