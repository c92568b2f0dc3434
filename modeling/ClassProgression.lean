import ClassProgression.Main
import ClassProgression.Proofs.Command.Console
import ClassProgression.Proofs.Catalog.Records
import ClassProgression.Proofs.Catalog.RoundTrip
import ClassProgression.Proofs.Command.AllOrNothing
import ClassProgression.Proofs.Command.StoredTable
import ClassProgression.Proofs.Description.Dependence
import ClassProgression.Proofs.Description.Outline
import ClassProgression.Proofs.Description.Termination
import ClassProgression.Proofs.Level.Reading
import ClassProgression.Proofs.Markup.Deletion
import ClassProgression.Proofs.Markup.RefusedLine
import ClassProgression.Proofs.Markup.Rounds
import ClassProgression.Proofs.Markup.Tagless
import ClassProgression.Proofs.Settings.RoundTrip
import ClassProgression.Proofs.Table.AnyOrder
import ClassProgression.Proofs.Table.Commuting
import ClassProgression.Proofs.Table.Gains
import ClassProgression.Proofs.Table.LeastAlignment
import ClassProgression.Proofs.Table.Offset
import ClassProgression.Proofs.Table.RoundTrip
