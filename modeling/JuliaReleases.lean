import JuliaReleases.Files.Tree
import JuliaReleases.Main
import JuliaReleases.Proofs.Range.Meaning
import JuliaReleases.Proofs.Range.RoundTrip
import JuliaReleases.Proofs.Resolution.Prerelease
import JuliaReleases.Proofs.Range.Union
import JuliaReleases.Proofs.Range.Lowering
import JuliaReleases.Proofs.Resolution.Widening
import JuliaReleases.Proofs.CompatRange.Clause
import JuliaReleases.Proofs.CompatRange.Specifier
import JuliaReleases.Proofs.CompatRange.Composite
import JuliaReleases.Proofs.Text.Occurrence
import JuliaReleases.Proofs.CompatRange.Alternatives
import JuliaReleases.Proofs.CompatRange.Unbounded
import JuliaReleases.Proofs.Range.Caret
import JuliaReleases.Proofs.CompatRange.BareVersion
import JuliaReleases.Proofs.Catalog.Lookup
import JuliaReleases.Proofs.Version.Tag
import JuliaReleases.Proofs.Request
import JuliaReleases.Proofs.Resolution.Releases
import JuliaReleases.Proofs.Catalog.Nightly
import JuliaReleases.Proofs.Resolution.Pin
import JuliaReleases.Proofs.Range.Grammar
import JuliaReleases.Proofs.Project.CompatTable
import JuliaReleases.Proofs.Project.Usable
import JuliaReleases.Proofs.Toml.Reader
import JuliaReleases.Proofs.Project.Spellings
import JuliaReleases.Proofs.Range.Partition
import JuliaReleases.Proofs.Range.WholeRelease
import JuliaReleases.Proofs.Range.Limit
import JuliaReleases.Proofs.Range.Intersection
import JuliaReleases.Proofs.Resolution.ExactRange
import JuliaReleases.Proofs.CommandLine.Options
import JuliaReleases.Proofs.CompatRange.Hyphen
import JuliaReleases.Proofs.CommandLine.Omission
import JuliaReleases.Proofs.CommandLine.Noninterference
import JuliaReleases.Proofs.Json.Layout
import JuliaReleases.Proofs.Json.Literal
import JuliaReleases.Proofs.Json.Typed
import JuliaReleases.Proofs.Catalog.Document
import JuliaReleases.Proofs.Catalog.RoundTrip
import JuliaReleases.Proofs.Range.HyphenRange
import JuliaReleases.Proofs.Range.StackedOperators
import JuliaReleases.Proofs.Range.BuildMetadata
import JuliaReleases.Proofs.CompatRange.BlankArms
import JuliaReleases.Proofs.Range.Respelling
import JuliaReleases.Proofs.Catalog.Address
import JuliaReleases.Proofs.Project.Location
import JuliaReleases.Proofs.Range.NormalForm
import JuliaReleases.Proofs.CompatRange.Rewriting
