import SimpleLR.Main
import SimpleLR.Parser.Inspect
import SimpleLR.Grammar.Derives
import SimpleLR.Proofs.Grammar.Building
import SimpleLR.Proofs.Grammar.Description.Printing
import SimpleLR.Proofs.Grammar.Loading
import SimpleLR.Proofs.Item.Validity
import SimpleLR.Proofs.Parser.Forest
import SimpleLR.Proofs.Parser.Resumption
import SimpleLR.Proofs.Recognizer.Arguments
import SimpleLR.Proofs.Recognizer.Rejection
import SimpleLR.Proofs.Recognizer.Renaming
import SimpleLR.Proofs.Recognizer.Safety
import SimpleLR.Proofs.Recognizer.Termination
import SimpleLR.Proofs.Grammar.Adjacency
import SimpleLR.Proofs.Parser.Failure
import SimpleLR.Proofs.Item.Advancing
import SimpleLR.Proofs.Recognizer.Acceptance
import SimpleLR.Proofs.Grammar.Description.Diagnosis
import SimpleLR.Proofs.Recognizer.Spelling
import SimpleLR.Proofs.Automaton.Search
