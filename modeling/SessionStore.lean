import SessionStore.CommandLine.Commands
import SessionStore.Main
import SessionStore.Proofs.Damage
import SessionStore.Proofs.KeptInTurns
import SessionStore.Proofs.ReadableOutput
import SessionStore.Proofs.Reencoding
import SessionStore.Proofs.NormalForm
import SessionStore.Proofs.Removable
import SessionStore.Proofs.Rewriting
import SessionStore.Proofs.SlotsInTurns
import SessionStore.Proofs.UnknownKinds
import SessionStore.Settings.Document
import SessionStore.Settings.Location
import SessionStore.Proofs.Collection.OneEach
import SessionStore.Proofs.Layout
import SessionStore.Proofs.NormalMerge
import SessionStore.Proofs.Limits
import SessionStore.Proofs.ActiveFiles
import SessionStore.Proofs.Collection.TieFree
import SessionStore.Proofs.RestoreThenSave
import SessionStore.Proofs.RestoredNewest
import SessionStore.Proofs.RestoreTwice
import SessionStore.Proofs.RestoreUntilError
import SessionStore.Proofs.InvalidEntries
import SessionStore.Proofs.RewrittenFrames
import SessionStore.Proofs.CutStreams
import SessionStore.Proofs.FileReplacement
import SessionStore.Proofs.MissingBytes
import SessionStore.Proofs.Collection.Insertions
import SessionStore.Proofs.StoppingEarly
import SessionStore.Proofs.RecentHistory
import SessionStore.Proofs.RestoreConfined
import SessionStore.Proofs.SavedVariables
import SessionStore.Proofs.Collection.Answers
import SessionStore.Proofs.Collection.MarkStores
import SessionStore.Proofs.WriterAccounts
import SessionStore.Proofs.Payload.Readable
import SessionStore.Proofs.Collection.Outcomes
import SessionStore.Proofs.DumpedLines
