import Zeppelin.Aspen.ChunkSets
import Zeppelin.Aspen.CompressedIter
import Zeppelin.Aspen.CompressedLists
import Zeppelin.Aspen.Compression
import Zeppelin.Aspen.MapOps
import Zeppelin.Aspen.MapRuns
import Zeppelin.Aspen.MapSearch
import Zeppelin.Aspen.TreeAlike
import Zeppelin.Aspen.TreePlus
import Zeppelin.Aspen.TreePlusGroups
import Zeppelin.Aspen.TreePlusNodes
import Zeppelin.Aspen.TreePlusOps
import Zeppelin.Aspen.TreePlusSet
import Zeppelin.Aspen.TreePlusUnion
import Zeppelin.Aspen.VersionAcquire
import Zeppelin.Aspen.VersionInvariant
import Zeppelin.Aspen.VersionSafety
import Zeppelin.Aspen.VersionSteps
import Zeppelin.Aspen.VersionedGraph
import Zeppelin.Aspen.WeightBalanced
import Zeppelin.Driver.Applied
import Zeppelin.Driver.Aspen
import Zeppelin.Driver.AspenGraph
import Zeppelin.Driver.ContinuousQuery
import Zeppelin.Driver.Terrace
import Zeppelin.Driver.TerraceGraph
import Zeppelin.Experiment.InsertionMgr
import Zeppelin.Experiment.MaxFinder
import Zeppelin.Experiment.Sampling
import Zeppelin.Linear.Collisions
import Zeppelin.Linear.Moments
import Zeppelin.Machine.Batching
import Zeppelin.Machine.Bytes
import Zeppelin.Machine.Cursor
import Zeppelin.Machine.Decimal
import Zeppelin.Machine.Delivery
import Zeppelin.Machine.Double
import Zeppelin.Machine.Lanes
import Zeppelin.Machine.Loop
import Zeppelin.Machine.Polling
import Zeppelin.Machine.Run
import Zeppelin.Machine.SignMagnitude
import Zeppelin.Machine.Sweep
import Zeppelin.Machine.Threads
import Zeppelin.Machine.Varint
import Zeppelin.Machine.Word
import Zeppelin.Number.Fermat
import Zeppelin.Number.Triangular
import Zeppelin.Ordered.PartialMap
import Zeppelin.Ordered.Segments
import Zeppelin.Ordered.SetLists
import Zeppelin.Sketch.AGMSketch
import Zeppelin.Sketch.Addition
import Zeppelin.Sketch.AdditionRange
import Zeppelin.Sketch.BatchUpdate
import Zeppelin.Sketch.Bucket
import Zeppelin.Sketch.Comparison
import Zeppelin.Sketch.Divisors
import Zeppelin.Sketch.Int127
import Zeppelin.Sketch.Levels
import Zeppelin.Sketch.Linearity
import Zeppelin.Sketch.Pairing
import Zeppelin.Sketch.Primality
import Zeppelin.Sketch.PrimeGenerator
import Zeppelin.Sketch.PrimeSearch
import Zeppelin.Sketch.Printer
import Zeppelin.Sketch.Query
import Zeppelin.Sketch.QueryOnce
import Zeppelin.Sketch.Scaling
import Zeppelin.Sketch.Soundness
import Zeppelin.Sketch.Types
import Zeppelin.Stream.BufferedEdgeInput
import Zeppelin.Stream.BufferedFileInput
import Zeppelin.Stream.EdgeFile
import Zeppelin.Stream.GraphStream
import Zeppelin.Stream.TextFile
import Zeppelin.Stream.Truncated
