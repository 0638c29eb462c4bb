import TagStore.Query.Printer
import TagStore.Query.Search
import TagStore.Query.Grammar
import TagStore.Main
import TagStore.Proofs.Query.RoundTrip
import TagStore.Proofs.Query.Views
import TagStore.Proofs.Query.Match
import TagStore.Proofs.Database.Mirror
import TagStore.Proofs.Query.Errors
import TagStore.Proofs.Links.Outline
import TagStore.Proofs.Disk.Spares
import TagStore.Proofs.Lockfile.Orderly
import TagStore.Proofs.Database.Settled
import TagStore.Proofs.Tag.Plain
import TagStore.Proofs.Disk.Route
import TagStore.Proofs.Lockfile.Reread
import TagStore.Proofs.Database.Saving
import TagStore.Proofs.Database.Dry
import TagStore.Proofs.Disk.Shields
import TagStore.Proofs.Lockfile.Stow
import TagStore.Proofs.Links.Shields
import TagStore.Proofs.Database.Guards
import TagStore.Proofs.Database.Intact
import TagStore.Proofs.Query.Edits
import TagStore.Proofs.Links.Inside
import TagStore.Proofs.Database.Distinct
import TagStore.Proofs.Catalog.Edits
import TagStore.Proofs.Links.Meet
import TagStore.Proofs.Lockfile.Fills
import TagStore.Proofs.Database.Early
import TagStore.Proofs.Database.Apart
import TagStore.Proofs.Database.Selection
import TagStore.Proofs.Query.Rearranged
import TagStore.Proofs.Links.Shared
import TagStore.Proofs.Query.Append
import TagStore.Proofs.Query.Monotone
import TagStore.Proofs.Query.Joined
import TagStore.Proofs.Query.Scanner
