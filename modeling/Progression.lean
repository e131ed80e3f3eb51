import Progression.Main
import Progression.File.Tree
import Progression.Proofs.Evaluation.Run
import Progression.Proofs.Definitions.Cycles
import Progression.Proofs.Evaluation.Opening
import Progression.Proofs.Evaluation.Plain
import Progression.Proofs.Evaluation.Invariant
import Progression.Proofs.Requirement.Derivation
import Progression.Proofs.Evaluation.Questions
import Progression.Proofs.Evaluation.Soundness
import Progression.Proofs.Evaluation.Coherence
import Progression.Proofs.Evaluation.Completeness
import Progression.Proofs.Evaluation.Relevance
import Progression.Proofs.Session.Queries
import Progression.Proofs.Evaluation.Spoiling
import Progression.Proofs.Session.Accessible
import Progression.Proofs.Session.Commands
import Progression.Proofs.Session.Ranking
import Progression.Proofs.Evaluation.Termination
import Progression.Proofs.FirstOccurrence
import Progression.Proofs.Session.Definedness
import Progression.Proofs.Session.Operations
import Progression.Proofs.Session.Choosing
import Progression.Proofs.Evaluation.Gating
import Progression.Proofs.Session.Relevance
import Progression.Proofs.Evaluation.Solo
import Progression.Proofs.Session.Relaxing
import Progression.Proofs.Evaluation.Row
import Progression.Proofs.Evaluation.Stopping
import Progression.Proofs.Evaluation.Repeating
import Progression.Proofs.Session.Together
import Progression.Proofs.Requirement.RoundTrip
import Progression.Proofs.World.Locations
import Progression.Proofs.Session.Candidates
import Progression.Proofs.Session.Portraits
import Progression.Proofs.Draws
import Progression.Proofs.Start.Items
import Progression.Proofs.Start.Pickups
import Progression.Proofs.Start.Room
import Progression.Proofs.Session.Seals
import Progression.Proofs.Session.LastRemoval
import Progression.Proofs.Text.Hexadecimal
import Progression.Proofs.Location.Spelling
import Progression.Proofs.World.Rooms
import Progression.Proofs.CommandLine.Playing
import Progression.Proofs.CommandLine.UndefinedNames
import Progression.Proofs.CommandLine.Ranking
import Progression.Proofs.CommandLine.Items
import Progression.Proofs.Definitions.Building
import Progression.Proofs.Location.SubKey
