import Backchain.Main
import Backchain.Proofs.Entailment
import Backchain.Proofs.Grammar.Terms
import Backchain.Proofs.Join.Completeness
import Backchain.Proofs.Join.Soundness
import Backchain.Proofs.Names.Genericity
import Backchain.Proofs.Names.Renaming
import Backchain.Proofs.Obtainable
import Backchain.Proofs.Search.Additions
import Backchain.Proofs.Search.Bound
import Backchain.Proofs.Search.EmptyBodies
import Backchain.Proofs.Search.Guard
import Backchain.Proofs.Search.Memory
import Backchain.Proofs.Search.Places
import Backchain.Proofs.Search.QueryVariables
import Backchain.Proofs.Search.Relevance
import Backchain.Proofs.Search.Requests
import Backchain.Proofs.Search.Supply
import Backchain.Proofs.Search.Warnings
import Backchain.Proofs.Unbranched
import Backchain.Proofs.Grammar.Clauses
import Backchain.Proofs.Grammar.Printing
import Backchain.Proofs.Reasoner.History
import Backchain.Proofs.Shell.Lines
import Backchain.Proofs.Shell.Listing
import Backchain.Proofs.Reasoner.Atomicity
import Backchain.Proofs.Shell.Sessions
import Backchain.Proofs.Shell.Preloading
import Backchain.Proofs.Search.Levels
import Backchain.Proofs.Unification.Writes
import Backchain.Proofs.Unification.MostGeneral
import Backchain.Proofs.Shell.Loading
import Backchain.Proofs.Shell.Status
import Backchain.Proofs.Shell.FirstRefused
import Backchain.Proofs.Json.Export
import Backchain.Proofs.Updates
import Backchain.Proofs.Composition
import Backchain.Proofs.Reasoner.Answers
