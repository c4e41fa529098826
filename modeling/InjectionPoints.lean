import InjectionPoints.Query
import InjectionPoints.Proofs.Completion
import InjectionPoints.Proofs.Queries
import InjectionPoints.Proofs.SelectorRoundTrip
import InjectionPoints.Proofs.Grammar.Construct
import InjectionPoints.Proofs.Grammar.Java
import InjectionPoints.Proofs.Grammar.Positions
import InjectionPoints.Proofs.Grammar.Comments
import InjectionPoints.Proofs.SourceTree
import InjectionPoints.Proofs.Tree.Places
import InjectionPoints.Proofs.Tree.Descent
import InjectionPoints.Proofs.SeparateCode
import InjectionPoints.Proofs.Scope.Locals
import InjectionPoints.Proofs.Typing.Depth
import InjectionPoints.Proofs.Typing.Sources
import InjectionPoints.Proofs.Renumbering.Files
import InjectionPoints.Proofs.WorkspaceInvariant
import InjectionPoints.Proofs.Layout.Files
import InjectionPoints.Proofs.Diagnostics
import InjectionPoints.Proofs.Literals.Delimited
import InjectionPoints.Proofs.Literals.Reading
import InjectionPoints.Proofs.Literals.Spelling
import InjectionPoints.Proofs.AcceptedCompletion
import InjectionPoints.Proofs.MethodPlaces
import InjectionPoints.Proofs.TargetMethod
import InjectionPoints.Proofs.Directory.Paths
import InjectionPoints.Proofs.QueryLog
import InjectionPoints.Proofs.Directory.Trees
import InjectionPoints.Proofs.Directory.Load
import InjectionPoints.Proofs.Descriptors.Syntax
import InjectionPoints.Proofs.Descriptors.WrittenTypes
import InjectionPoints.Proofs.Descriptors.Erasure
import InjectionPoints.Proofs.Overloads.Ranking
import InjectionPoints.Proofs.Overloads.Boxing
import InjectionPoints.Proofs.Overloads.Subtypes
import InjectionPoints.Proofs.Qualifiers
import InjectionPoints.Proofs.Hierarchy.BreadthFirst
import InjectionPoints.Proofs.Hierarchy.Supertypes
import InjectionPoints.Proofs.Hierarchy.Members
import InjectionPoints.Proofs.Hierarchy.SubtypeAnswers
import InjectionPoints.Proofs.Overloads.UnknownTypes
import InjectionPoints.Proofs.Visits
import InjectionPoints.Proofs.Scope.Innermost
import InjectionPoints.Proofs.Constructors
import InjectionPoints.Proofs.Typing.Parameters
import InjectionPoints.Proofs.Operands
import InjectionPoints.Proofs.Descriptors.Resolution
import InjectionPoints.Proofs.Descriptors.BracketGroups
import InjectionPoints.Proofs.Grammar.Identifiers
import InjectionPoints.Proofs.ClassNames
import InjectionPoints.Proofs.Descriptors.NestedNames
import InjectionPoints.Proofs.Tree.Spans
import InjectionPoints.Proofs.Literals.Contents
import InjectionPoints.Proofs.SelectorSpellings
import InjectionPoints.Proofs.Literals.TwoSteps
import InjectionPoints.Proofs.Literals.ReadAlike
import InjectionPoints.Proofs.Literals.SideBySide
