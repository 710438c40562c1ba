import VectorImage.Bytes.Crc32
import VectorImage.Bytes.Gzip
import VectorImage.Bytes.Inflate
import VectorImage.Bytes.LittleEndian
import VectorImage.Cache.Basic
import VectorImage.Cache.Location
import VectorImage.Cache.Recency
import VectorImage.Cache.Script
import VectorImage.Cache.Source
import VectorImage.Call.Backend
import VectorImage.Call.Basic
import VectorImage.Call.Nesting
import VectorImage.Canonical.Key
import VectorImage.Canonical.Table
import VectorImage.Canonical.TableSet
import VectorImage.Compact.Encoder
import VectorImage.Compact.Encoding
import VectorImage.Compact.Header
import VectorImage.Compact.Image
import VectorImage.Compact.Instruction
import VectorImage.Compact.Tables
import VectorImage.Config
import VectorImage.Drawing.Bounds
import VectorImage.Drawing.Painter
import VectorImage.Drawing.Primitive
import VectorImage.Drawing.Resources
import VectorImage.Error
import VectorImage.Geometry.Affine
import VectorImage.Geometry.Rect
import VectorImage.Geometry.Viewport
import VectorImage.Graph.Builder
import VectorImage.Graph.Image
import VectorImage.Graph.Listing
import VectorImage.Graph.Node
import VectorImage.Graph.Sharing
import VectorImage.Image
import VectorImage.Indexed
import VectorImage.Input.Parser
import VectorImage.Input.Text
import VectorImage.Json.Basic
import VectorImage.Json.Parser
import VectorImage.Number.Binary32
import VectorImage.Number.Binary64
import VectorImage.Number.Decimal
import VectorImage.Number.Real
import VectorImage.Number.Rounding
import VectorImage.Paint.Basic
import VectorImage.Paint.Color
import VectorImage.Path.Arc
import VectorImage.Path.Basic
import VectorImage.Path.Outline
import VectorImage.Path.Syntax
import VectorImage.Proofs.Call.Acceptance
import VectorImage.Proofs.Call.Recording
import VectorImage.Proofs.Call.Renaming
import VectorImage.Proofs.Call.Replay
import VectorImage.Proofs.Call.Rounding
import VectorImage.Proofs.Canonical.Key
import VectorImage.Proofs.Canonical.Occurrence
import VectorImage.Proofs.Canonical.Seed
import VectorImage.Proofs.Canonical.Table
import VectorImage.Proofs.Compact.Emission
import VectorImage.Proofs.Compact.Encoding
import VectorImage.Proofs.Compact.Fidelity
import VectorImage.Proofs.Compact.Interning
import VectorImage.Proofs.Compact.LazyWalk
import VectorImage.Proofs.Compact.Loading
import VectorImage.Proofs.Compact.Operands
import VectorImage.Proofs.Compact.Reading
import VectorImage.Proofs.Compact.Scan
import VectorImage.Proofs.Compact.Stored
import VectorImage.Proofs.Compact.Storing
import VectorImage.Proofs.Compact.Tracing
import VectorImage.Proofs.Compact.Traversal
import VectorImage.Proofs.Drawing.Echo
import VectorImage.Proofs.Drawing.Sketch
import VectorImage.Proofs.Drawing.Step
import VectorImage.Proofs.Graph.Building
import VectorImage.Proofs.Graph.Coherence
import VectorImage.Proofs.Graph.Face
import VectorImage.Proofs.Graph.Inventory
import VectorImage.Proofs.Graph.Portrayal
import VectorImage.Proofs.Graph.Progress
import VectorImage.Proofs.Graph.Steps
import VectorImage.Proofs.Input.Reading
import VectorImage.Proofs.Number.Precision
import VectorImage.Proofs.Outcome
import VectorImage.Proofs.Text.Utf8
import VectorImage.Raster.Basic
import VectorImage.Raster.Png
import VectorImage.Raster.Size
import VectorImage.Script.Inspection
import VectorImage.Script.Run
import VectorImage.Shape
import VectorImage.Svg.Box
import VectorImage.Svg.Document
import VectorImage.Svg.Element
import VectorImage.Svg.Embedding
import VectorImage.Svg.Figure
import VectorImage.Svg.Gradient
import VectorImage.Svg.Image
import VectorImage.Svg.Ink
import VectorImage.Svg.Manifest
import VectorImage.Svg.Measure
import VectorImage.Svg.Nodes
import VectorImage.Svg.Outline
import VectorImage.Svg.Picture
import VectorImage.Svg.Placement
import VectorImage.Svg.Scene
import VectorImage.Svg.Stream
import VectorImage.Svg.Tree
import VectorImage.Svg.Value.Aspect
import VectorImage.Svg.Value.ColorName
import VectorImage.Svg.Value.ColorText
import VectorImage.Svg.Value.DataUrl
import VectorImage.Svg.Value.Length
import VectorImage.Svg.Value.Origin
import VectorImage.Svg.Value.Paint
import VectorImage.Svg.Value.PathData
import VectorImage.Svg.Value.Transform
import VectorImage.Text.Base64
import VectorImage.Text.Quoted
import VectorImage.Text.Utf8
import VectorImage.Text.White
import VectorImage.View.Prune
import VectorImage.Xml.Attribute
import VectorImage.Xml.Doctype
import VectorImage.Xml.Namespace
import VectorImage.Xml.Parser
import VectorImage.Xml.Token
import VectorImage.Proofs.Graph.Order
import VectorImage.Proofs.Graph.Regularity
import VectorImage.Proofs.Graph.Replaying
import VectorImage.Proofs.View.Passes
import VectorImage.Proofs.View.Targets
import VectorImage.Proofs.Graph.Sessions
import VectorImage.Proofs.View.Survivors
import VectorImage.Proofs.View.Origin
import VectorImage.Proofs.Call.Streams
import VectorImage.Proofs.Compact.Condensing
import VectorImage.Proofs.Compact.Progress
import VectorImage.Proofs.Call.Passing
import VectorImage.Proofs.Call.Mirroring
import VectorImage.Proofs.Compact.Stream
import VectorImage.Proofs.Agreement
import VectorImage.Proofs.Cache.Model
import VectorImage.Proofs.Cache.Refinement
import VectorImage.Proofs.Graph.Reissue
import VectorImage.Proofs.Drawing.Context
import VectorImage.Proofs.View.Trimming
import VectorImage.Proofs.View.Composition
import VectorImage.Proofs.Compact.Held
import VectorImage.Proofs.Compact.Seeding
import VectorImage.Proofs.Compact.Registering
import VectorImage.Proofs.Graph.Sketching
import VectorImage.Proofs.Compact.Pruning
import VectorImage.Proofs.Graph.Likeness
import VectorImage.Proofs.View.Likeness
import VectorImage.Proofs.Cache.Loads
import VectorImage.Proofs.View.Seeding
import VectorImage.Proofs.Graph.Exactness
import VectorImage.Proofs.Graph.Identity
import VectorImage.Proofs.Compact.NormalForm
import VectorImage.Proofs.Call.Grammar
import VectorImage.Proofs.Compact.Layout
import VectorImage.Proofs.View.Rendering
import VectorImage.Proofs.Refusal
import VectorImage.Proofs.Compact.Truncation
import VectorImage.Proofs.Compact.Varint
import VectorImage.Proofs.View.Pinning
import VectorImage.Proofs.View.Instances
import VectorImage.Proofs.Svg.Stream
import VectorImage.Proofs.Svg.Precision
import VectorImage.Proofs.Drawing.Outlines
import VectorImage.Proofs.Cache.Handles
import VectorImage.Proofs.Drawing.Coverage
import VectorImage.Proofs.View.Measuring
import VectorImage.Proofs.Graph.Recording
import VectorImage.Proofs.Graph.Census
import VectorImage.Proofs.Graph.Furnishing
import VectorImage.Proofs.Graph.Emptiness
