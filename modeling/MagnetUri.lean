import MagnetUri.Link.Basic
import MagnetUri.Summary
import MagnetUri.Proofs.Uri.Beginning
import MagnetUri.Proofs.Utf8.RoundTrip
import MagnetUri.Percent.InPlace
import MagnetUri.Proofs.Grammar
import MagnetUri.Proofs.Text.Parts
import MagnetUri.Proofs.Grammar.Groups
import MagnetUri.Proofs.Grammar.Run
import MagnetUri.Proofs.Grammar.Literal
import MagnetUri.Proofs.Uri.Component
import MagnetUri.Proofs.Uri.Reading
import MagnetUri.Proofs.Uri.Recognition
import MagnetUri.Proofs.Percent.Pieces
import MagnetUri.Proofs.Query
import MagnetUri.Proofs.Field
import MagnetUri.Proofs.Link.Acceptance
import MagnetUri.Proofs.Link.Safety
import MagnetUri.Proofs.Link.Listings
import MagnetUri.Proofs.InfoHash
import MagnetUri.Proofs.Scratch
import MagnetUri.Proofs.Selection.Reading
import MagnetUri.Proofs.Link.Draft
import MagnetUri.Proofs.Summary
import MagnetUri.Proofs.Summary.RoundTrip
import MagnetUri.Proofs.Utf8.Canonical
import MagnetUri.Proofs.Peer
import MagnetUri.Proofs.Link.Comparison
import MagnetUri.Proofs.Link.Options
import MagnetUri.Proofs.Summary.Spelling
import MagnetUri.Proofs.Link.Local
import MagnetUri.Proofs.Link.Journal
import MagnetUri.Proofs.Selection.Interleaving
import MagnetUri.Proofs.Link.Turns
import MagnetUri.Proofs.Summary.Unrelated
import MagnetUri.Proofs.Percent.Mend
import MagnetUri.Proofs.Uri.Escape
import MagnetUri.Proofs.Uri.Broken
import MagnetUri.Proofs.Uri.Longest
import MagnetUri.Proofs.Uri.Sameness
import MagnetUri.Proofs.Query.Pieces
import MagnetUri.Proofs.Percent.InPlace
import MagnetUri.Proofs.Percent.Walk
import MagnetUri.Proofs.Percent.Parting
import MagnetUri.Proofs.Selection.Position
import MagnetUri.Proofs.Selection.Calls
import MagnetUri.Proofs.Selection.Progress
import MagnetUri.Proofs.InfoHash.Base32
import MagnetUri.Proofs.InfoHash.Letters
import MagnetUri.Proofs.Number
