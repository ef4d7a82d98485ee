import LocalityOrder.Main
import LocalityOrder.Digraph.Affinity
import LocalityOrder.RankedList
import LocalityOrder.Proofs.Checked
import LocalityOrder.Proofs.RunQueue.Segment
import LocalityOrder.Proofs.RankedList.Descends
import LocalityOrder.Proofs.RankedList.WellFormed
import LocalityOrder.Proofs.RunQueue.Ends
import LocalityOrder.Proofs.RankedList.Fold
import LocalityOrder.Proofs.RankedList.Extract
import LocalityOrder.Proofs.RunQueue.Represents
import LocalityOrder.Proofs.RunQueue.Extract
import LocalityOrder.Proofs.RankedList.Assign
import LocalityOrder.Proofs.RunQueue.Assign
import LocalityOrder.Proofs.RankedList.Count
import LocalityOrder.Proofs.Table
import LocalityOrder.Proofs.Transpose
import LocalityOrder.Proofs.Affinity
import LocalityOrder.Proofs.WindowScores
import LocalityOrder.Proofs.Window
import LocalityOrder.Proofs.Placement.Tracks
import LocalityOrder.Proofs.Placement.Start
import LocalityOrder.Proofs.Placement.Survey
import LocalityOrder.Proofs.Placement.Run
import LocalityOrder.Proofs.Renumbering
import LocalityOrder.Proofs.Layout
import LocalityOrder.Proofs.Placement.EffectiveKeys
import LocalityOrder.Proofs.NearGreedy
import LocalityOrder.Proofs.Renumbering.Ids
import LocalityOrder.Proofs.Renumber
import LocalityOrder.Proofs.Reordered
import LocalityOrder.Proofs.Text
import LocalityOrder.Proofs.Digraph.Edges
import LocalityOrder.Proofs.LabeledGraph
import LocalityOrder.Proofs.Command
import LocalityOrder.Proofs.OrderedText
import LocalityOrder.Proofs.RankedList.History
import LocalityOrder.Proofs.RunQueue.Refinement
import LocalityOrder.Proofs.RunQueue.Best
import LocalityOrder.Proofs.RankedList.Seniority
import LocalityOrder.Proofs.RunQueue.Seniority
import LocalityOrder.Proofs.WideWindow
import LocalityOrder.Proofs.Spread.Digraph
import LocalityOrder.Proofs.Spread.RankedList
import LocalityOrder.Proofs.Spread.Layout
import LocalityOrder.Proofs.Renumbering.Defects
import LocalityOrder.Proofs.Transpose.Exact
import LocalityOrder.Proofs.Grammar
import LocalityOrder.Proofs.Renumbering.Group
import LocalityOrder.Proofs.Transpose.Renumber
import LocalityOrder.Proofs.Encoding
import LocalityOrder.Proofs.Digraph.Given
import LocalityOrder.Proofs.Events
