import YamlEdit.Document
import YamlEdit.Proofs.Document.Breaks
import YamlEdit.Proofs.Document.Fallback
import YamlEdit.Proofs.Document.Filling
import YamlEdit.Proofs.Document.KeyOrder
import YamlEdit.Proofs.Document.Returns
import YamlEdit.Proofs.Document.RoundTrip
import YamlEdit.Proofs.Draft.Insertions
import YamlEdit.Proofs.Draft.Positions
import YamlEdit.Proofs.Draft.Simultaneous
import YamlEdit.Proofs.Patch.Erase
import YamlEdit.Proofs.Patch.Spares
import YamlEdit.Proofs.Tree.Compositional
import YamlEdit.Proofs.Tree.Extent
import YamlEdit.Proofs.Tree.Load
import YamlEdit.Value.Edit
import YamlEdit.Proofs.Document.Anchors
import YamlEdit.Proofs.Graph.Meaning
import YamlEdit.Proofs.Load.Build
import YamlEdit.Proofs.Load.Meaning
import YamlEdit.Proofs.Settle.Unchanged
import YamlEdit.Proofs.Settle.Still
import YamlEdit.Proofs.Settle.Forward
import YamlEdit.Proofs.Graph.Part
import YamlEdit.Proofs.Load.Arises
import YamlEdit.Proofs.Load.Locality
import YamlEdit.Proofs.Tree.Below
import YamlEdit.Proofs.Tree.Stored
import YamlEdit.Proofs.Document.Idempotence
import YamlEdit.Proofs.Document.Lookup
import YamlEdit.Proofs.Remark
import YamlEdit.Proofs.Remark.LineTail
import YamlEdit.Proofs.Tree.Reached
import YamlEdit.Proofs.Tree.Rebuilt
import YamlEdit.Proofs.Document.Indent
import YamlEdit.Proofs.Tree.Lenient
import YamlEdit.Proofs.Outline.Quoted
import YamlEdit.Proofs.Tree.Dashes
import YamlEdit.Proofs.Tree.Rendered
import YamlEdit.Proofs.Document.Remarks
import YamlEdit.Proofs.Document.Comments
