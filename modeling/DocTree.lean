import DocTree.Main
import DocTree.Session
import DocTree.Proofs.Key
import DocTree.Proofs.Entries
import DocTree.Proofs.Indices
import DocTree.Proofs.Location
import DocTree.Proofs.Collect
import DocTree.Proofs.DeepWrite
import DocTree.Proofs.WellKeyed
import DocTree.Proofs.Decoding
import DocTree.Proofs.Fit
import DocTree.Proofs.Forest.Basic
import DocTree.Proofs.Forest.Mutation
import DocTree.Proofs.Forest.Run
import DocTree.Proofs.Forest.Linked
import DocTree.Proofs.Forest.Independence
import DocTree.Proofs.Forest.Resolve
import DocTree.Proofs.Forest.DeepWrite
import DocTree.Proofs.Forest.WellKeyed
import DocTree.Proofs.Merge.Leaves
import DocTree.Proofs.Merge.Slots
import DocTree.Proofs.Merge.Weave
import DocTree.Proofs.Merge.Rule
import DocTree.Proofs.Merge.Associative
import DocTree.Proofs.Merge.WellKeyed
import DocTree.Proofs.FreeIndex
import DocTree.Proofs.Forest.Append
import DocTree.Proofs.Sequence
import DocTree.Proofs.Position
import DocTree.Proofs.OrderedMap
import DocTree.Proofs.Forest.Succession
import DocTree.Proofs.Forest.Ends
import DocTree.Proofs.Forest.Sequence
import DocTree.Proofs.Path
import DocTree.Proofs.Clause
import DocTree.Proofs.Flatten
import DocTree.Proofs.Level
import DocTree.Proofs.Vantage
import DocTree.Proofs.Forest.Sound
import DocTree.Proofs.Forest.Bounds
import DocTree.Proofs.Forest.Distinct
import DocTree.Proofs.Forest.Vantage
import DocTree.Proofs.Forest.Trace
import DocTree.Proofs.Forest.Staleness
import DocTree.Proofs.Forest.Undisturbed
import DocTree.Proofs.Forest.CursorWalk
import DocTree.Proofs.Forest.Drain
import DocTree.Proofs.Forest.Children
import DocTree.Proofs.Candidates
import DocTree.Proofs.Reach
import DocTree.Proofs.TwoWildcards
import DocTree.Proofs.Json.Number
import DocTree.Proofs.Json.RoundTrip
import DocTree.Proofs.Forest.Lineage
import DocTree.Proofs.Forest.Descent
import DocTree.Proofs.Forest.Wildcard
import DocTree.Proofs.Forest.Reach
import DocTree.Proofs.Forest.TwoWildcards
import DocTree.Proofs.Forest.Primitive
import DocTree.Proofs.Normal
import DocTree.Proofs.Agreement
import DocTree.Proofs.RoundTrip
import DocTree.Proofs.LastCharacter
import DocTree.Proofs.Json.Behind
import DocTree.Proofs.Yaml.LastLine
import DocTree.Proofs.Cli.Document
import DocTree.Proofs.Cli.Append
import DocTree.Proofs.Cli.Emit
import DocTree.Proofs.Cli.EditReadBack
