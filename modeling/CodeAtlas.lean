import CodeAtlas.Build
import CodeAtlas.Component.Reading
import CodeAtlas.Config.Reading
import CodeAtlas.Proofs.Component.Store
import CodeAtlas.Proofs.Scope.Nesting
import CodeAtlas.Proofs.Build.Containment
import CodeAtlas.Proofs.Build.Packages
import CodeAtlas.Proofs.Builder.Children
import CodeAtlas.Proofs.Builder.Histories
import CodeAtlas.Proofs.Builder.Tally
import CodeAtlas.Proofs.Catalog.Hanging
import CodeAtlas.Proofs.Java.Hanging
import CodeAtlas.Proofs.Java.Muted
import CodeAtlas.Proofs.Java.Declarations
import CodeAtlas.Proofs.Builder.Shape
import CodeAtlas.Proofs.Catalog.Overlay
import CodeAtlas.Proofs.Builder.Lockstep
import CodeAtlas.Proofs.Java.Sharing
import CodeAtlas.Proofs.Build.Sharing
import CodeAtlas.Proofs.Builder.Endings
import CodeAtlas.Proofs.Java.Completion
import CodeAtlas.Proofs.Catalog.WellFormed
import CodeAtlas.Proofs.Build.Succession
import CodeAtlas.Proofs.Build.Members
import CodeAtlas.Proofs.Java.Modes
import CodeAtlas.Proofs.Builder.Conservation
import CodeAtlas.Proofs.Build.Verdict
import CodeAtlas.Proofs.Catalog.Reordering
import CodeAtlas.Proofs.Tree.Events
import CodeAtlas.Proofs.Java.Termination
import CodeAtlas.Proofs.Build.Logging
import CodeAtlas.Proofs.Builder.Gathering
import CodeAtlas.Proofs.Builder.Together
import CodeAtlas.Proofs.Builder.Declarators
import CodeAtlas.Proofs.Builder.Frozen
import CodeAtlas.Proofs.Builder.Parents
import CodeAtlas.Proofs.Java.TypeNames
import CodeAtlas.Proofs.Java.Learning
import CodeAtlas.Proofs.Java.TypeReferences
import CodeAtlas.Proofs.Java.Relationships
import CodeAtlas.Proofs.Resolver.Resolution
import CodeAtlas.Proofs.Java.Encoding
import CodeAtlas.Proofs.Java.LambdaParameters
import CodeAtlas.Proofs.Java.Comments
import CodeAtlas.Proofs.Java.SyntaxErrors
import CodeAtlas.Proofs.Scope.Arena
import CodeAtlas.Proofs.Builder.Underflow
