import GraphPattern.Main
import GraphPattern.NamedPattern
import GraphPattern.Schedule
import GraphPattern.Form.Table
import GraphPattern.Model.Building
import GraphPattern.Number.Literal
import GraphPattern.Proofs.Arena
import GraphPattern.Proofs.Connected
import GraphPattern.Proofs.Anchoring
import GraphPattern.Proofs.Regular
import GraphPattern.Proofs.Reading
import GraphPattern.Proofs.Emission
import GraphPattern.Proofs.Chains
import GraphPattern.Proofs.WalkFrontier
import GraphPattern.Proofs.WalkCourse
import GraphPattern.Proofs.Sweeps
import GraphPattern.Proofs.Routes
import GraphPattern.Proofs.World
import GraphPattern.Proofs.Expressions
import GraphPattern.Proofs.Realize
import GraphPattern.Proofs.Paths
import GraphPattern.Proofs.Solutions
import GraphPattern.Proofs.ChainDepartures
import GraphPattern.Proofs.CourseSteps
import GraphPattern.Proofs.TypedGraphs
import GraphPattern.Proofs.ReversedPaths
import GraphPattern.Proofs.Answers
import GraphPattern.Proofs.ObjectModels
import GraphPattern.Proofs.Tracking
import GraphPattern.Proofs.PatternItems
import GraphPattern.Proofs.Assignments
import GraphPattern.Proofs.GraphMatches
import GraphPattern.Proofs.ObjectMatches
import GraphPattern.Proofs.Complaints
import GraphPattern.Proofs.Keywords
import GraphPattern.Proofs.Scoping
import GraphPattern.Proofs.ScopedPlans
import GraphPattern.Proofs.BareGraphs
import GraphPattern.Proofs.BarePlans
import GraphPattern.Proofs.Segments
import GraphPattern.Proofs.Engines
import GraphPattern.Proofs.Refusals
import GraphPattern.Proofs.EdgeTallies
import GraphPattern.Proofs.Exhaustive
import GraphPattern.Proofs.Renamed
import GraphPattern.Proofs.Embeddings
import GraphPattern.Proofs.Juxtaposed
import GraphPattern.Proofs.Composed
import GraphPattern.Proofs.Concatenated
import GraphPattern.Proofs.Steady
import GraphPattern.Proofs.Weaves
import GraphPattern.Proofs.Sifted
import GraphPattern.Proofs.Filtering
import GraphPattern.Proofs.Laziness
import GraphPattern.Proofs.Sessions
import GraphPattern.Proofs.Comprehension
import GraphPattern.Proofs.CutEnumerations
import GraphPattern.Proofs.Typings
import GraphPattern.Proofs.Phrases
import GraphPattern.Proofs.Legible
import GraphPattern.Proofs.Drawings
import GraphPattern.Proofs.Dumps
import GraphPattern.Proofs.DepthFirstPatterns
import GraphPattern.Proofs.Provenance
import GraphPattern.Proofs.StackAgendas
import GraphPattern.Proofs.WalkLegs
import GraphPattern.Proofs.DepthFirstWalk
import GraphPattern.Proofs.Declared
import GraphPattern.Proofs.ChainTrails
import GraphPattern.Proofs.Visits
import GraphPattern.Proofs.ConstraintRows
import GraphPattern.Proofs.RunMoments
import GraphPattern.Proofs.Presence
import GraphPattern.Proofs.Names
import GraphPattern.Proofs.Calls
import GraphPattern.Proofs.Growth
import GraphPattern.Proofs.Containers
import GraphPattern.Proofs.Preorder
import GraphPattern.Proofs.Forests
import GraphPattern.Proofs.Itineraries
import GraphPattern.Proofs.UnboundNames
import GraphPattern.Proofs.Schedules
import GraphPattern.Proofs.CountedOrders
import GraphPattern.Proofs.DiagnosticPlaces
import GraphPattern.Proofs.WalkMachine
import GraphPattern.Proofs.Mentions
import GraphPattern.Proofs.Seams
import GraphPattern.Proofs.SeamReadings
import GraphPattern.Proofs.SeamWalks
import GraphPattern.Proofs.SeamVisits
import GraphPattern.Proofs.Repeats
import GraphPattern.Proofs.PatternPortions
import GraphPattern.Proofs.Lineages
import GraphPattern.Proofs.Adjacency
import GraphPattern.Proofs.Lexemes
import GraphPattern.Proofs.PlainPlans
