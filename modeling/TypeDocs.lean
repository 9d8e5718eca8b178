import TypeDocs.Main
import TypeDocs.Proofs.Annotating
import TypeDocs.Proofs.Answering
import TypeDocs.Proofs.Conforming
import TypeDocs.Proofs.Dangling
import TypeDocs.Proofs.Decoding
import TypeDocs.Proofs.Distinct
import TypeDocs.Proofs.Documents
import TypeDocs.Proofs.Generating
import TypeDocs.Proofs.Requesting
import TypeDocs.Proofs.Roots
import TypeDocs.Proofs.RoundTrip
import TypeDocs.Proofs.Unclosed
import TypeDocs.Proofs.Visiting
import TypeDocs.Proofs.Obtaining
import TypeDocs.Proofs.Collecting
import TypeDocs.Proofs.Malformed
import TypeDocs.Proofs.Selecting
import TypeDocs.Proofs.Declaring
import TypeDocs.Proofs.Placing
import TypeDocs.Proofs.Binding
import TypeDocs.Proofs.Constructing
import TypeDocs.Proofs.Circling
import TypeDocs.Proofs.Inserting
import TypeDocs.Proofs.Respelling
